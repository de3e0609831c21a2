import Mathlib.Data.List.Basic
import Mathlib.Algebra.BigOperators.Group.List.Basic
import Mathlib.Algebra.Order.BigOperators.Group.List
import Mathlib.Algebra.Order.Ring.Nat

/-!
# Strings counted in UTF-16 and stored in UTF-8

A runtime that counts a string in UTF-16 code units and stores it in UTF-8 gets
two lengths. `utf16Length_le` and `utf16Length_eq_iff` compare them: they agree
exactly on ASCII strings. What a decoder makes of malformed input is a parameter.
-/

namespace Foundation.Utf8

/-- The UTF-16 code units of a character. -/
def utf16Units (c : Char) : ℕ := if c.val ≤ 0xFFFF then 1 else 2

def utf16Length (s : String) : ℕ := (s.toList.map utf16Units).sum

def encode (s : String) : List UInt8 := s.toList.flatMap String.utf8EncodeChar

def decode (malformed : List UInt8 → String) (bs : List UInt8) : String :=
  (String.fromUTF8? bs.toByteArray).getD (malformed bs)

def isAsciiChar (c : Char) : Bool := c.val ≤ 0x7F

def isAscii (s : String) : Bool := s.toList.all isAsciiChar

/-! ## Round trip -/

theorem toByteArray_encode (s : String) : (encode s).toByteArray = s.toByteArray := by
  show s.toList.utf8Encode = s.toByteArray
  exact String.utf8Encode_toList

theorem decode_encode (malformed : List UInt8 → String) (s : String) :
    decode malformed (encode s) = s := by
  have hs : String.fromUTF8? s.toByteArray = some s := by
    unfold String.fromUTF8?
    rw [dif_pos s.isValidUTF8]
    rfl
  rw [decode, toByteArray_encode, hs, Option.getD_some]

/-! ## The two lengths -/

theorem encode_injective {s t : String} (h : encode s = encode t) : s = t := by
  rw [← decode_encode (fun _ => "") s, h, decode_encode]

theorem length_encode (s : String) : (encode s).length = (s.toList.map Char.utf8Size).sum := by
  simp [encode, List.length_flatMap]

theorem utf16Units_of_ascii {c : Char} (h : isAsciiChar c = true) :
    utf16Units c = 1 ∧ c.utf8Size = 1 := by
  have h7 : c.val ≤ 0x7F := of_decide_eq_true h
  have h16 : c.val ≤ 0xFFFF := Nat.le_trans h7 (by decide)
  exact ⟨if_pos h16, Char.utf8Size_eq_one_iff.mpr h7⟩

theorem utf16Units_lt {c : Char} (h : isAsciiChar c = false) : utf16Units c < c.utf8Size := by
  have h7 : ¬ c.val ≤ 0x7F := of_decide_eq_false h
  unfold utf16Units
  split
  · have hpos : 0 < c.utf8Size := Char.utf8Size_pos c
    have hne : c.utf8Size ≠ 1 := fun h1 => h7 (Char.utf8Size_eq_one_iff.mp h1)
    omega
  · rename_i h16
    -- above U+FFFF the size is 4
    have h11 : ¬ c.val ≤ 0x7FF := fun h' => h16 (Nat.le_trans h' (by decide))
    have h4 : c.utf8Size = 4 := by
      show (if c.val ≤ 0x7F then 1 else if c.val ≤ 0x7FF then 2
        else if c.val ≤ 0xFFFF then 3 else 4) = 4
      rw [if_neg h7, if_neg h11, if_neg h16]
    omega

theorem utf16Units_le (c : Char) : utf16Units c ≤ c.utf8Size := by
  cases h : isAsciiChar c with
  | true =>
      obtain ⟨h16, h8⟩ := utf16Units_of_ascii h
      omega
  | false => exact Nat.le_of_lt (utf16Units_lt h)

theorem utf16Length_le (s : String) : utf16Length s ≤ (encode s).length := by
  rw [length_encode]
  exact List.sum_le_sum fun c _ => utf16Units_le c

theorem sum_units_eq_iff (cs : List Char) :
    (cs.map utf16Units).sum = (cs.map Char.utf8Size).sum ↔ cs.all isAsciiChar = true := by
  induction cs with
  | nil => simp
  | cons c cs ih =>
      have hle : (cs.map utf16Units).sum ≤ (cs.map Char.utf8Size).sum :=
        List.sum_le_sum fun c _ => utf16Units_le c
      simp only [List.map_cons, List.sum_cons, List.all_cons, Bool.and_eq_true, ← ih]
      cases h : isAsciiChar c with
      | true =>
          obtain ⟨h16, h8⟩ := utf16Units_of_ascii h
          simp only [true_and]
          omega
      | false =>
          have hlt := utf16Units_lt h
          simp only [Bool.false_eq_true, false_and, iff_false]
          omega

theorem utf16Length_eq_iff (s : String) :
    utf16Length s = (encode s).length ↔ isAscii s = true := by
  rw [length_encode]
  exact sum_units_eq_iff s.toList

/-! ## ASCII bytes -/

theorem encode_ascii : ∀ n < 128,
    String.utf8EncodeChar (Char.ofNat n) = [UInt8.ofNat n] ∧
      isAsciiChar (Char.ofNat n) = true := by
  decide +kernel

/-- ASCII bytes are the text of an ASCII string. -/
theorem exists_ascii {bs : List UInt8} (h : ∀ b ∈ bs, b ≤ 0x7F) :
    ∃ s, encode s = bs ∧ isAscii s = true := by
  have hlt : ∀ b ∈ bs, b.toNat < 128 := by
    intro b hb
    exact Nat.lt_succ_of_le (UInt8.le_iff_toNat_le.mp (h b hb))
  clear h
  refine ⟨String.ofList (bs.map fun b => Char.ofNat b.toNat), ?_, ?_⟩
  · rw [encode, String.toList_ofList]
    induction bs with
    | nil => rfl
    | cons b bs ih =>
        obtain ⟨hb, hbs⟩ := List.forall_mem_cons.mp hlt
        rw [List.map_cons, List.flatMap_cons, (encode_ascii _ hb).1, ih hbs, UInt8.ofNat_toNat]
        rfl
  · rw [isAscii, String.toList_ofList, List.all_map, List.all_eq_true]
    intro b hb
    exact (encode_ascii _ (hlt b hb)).2

end Foundation.Utf8

import Mathlib.Data.List.Basic
import Mathlib.Tactic.NormNum
import Mathlib.Tactic.Ring

/-!
# Fixed-width integers, reads and C strings over byte lists

`le n v` are the low `n` bytes of `v`, least significant first, and `be n v` the
same bytes in network order; `leBits` and `beBits` read a machine word back. A
width smaller than the word's truncates, as a `memcpy` of `sizeof(short)` bytes
out of an `int` does. `cString` is a NUL-terminated string inside a window.
-/

namespace Foundation.Bytes

/-! ## Little endian -/

def le : ℕ → ℕ → List UInt8
  | 0, _ => []
  | n + 1, v => UInt8.ofNat v :: le n (v / 256)

def ofLe : List UInt8 → ℕ
  | [] => 0
  | b :: bs => b.toNat + 256 * ofLe bs

@[simp] theorem length_le (n v : ℕ) : (le n v).length = n := by
  induction n generalizing v with
  | zero => rfl
  | succ n ih => simp [le, ih]

theorem ofLe_le (n v : ℕ) : ofLe (le n v) = v % 256 ^ n := by
  induction n generalizing v with
  | zero => simp [le, ofLe, Nat.mod_one]
  | succ n ih =>
      have hb : (UInt8.ofNat v).toNat = v % 256 := by simp
      rw [le, ofLe, ih, hb, pow_succ', Nat.mod_mul]

theorem pow_256 {n w : ℕ} (hw : w = 8 * n) : (256 : ℕ) ^ n = 2 ^ w := by
  rw [hw, pow_mul]
  norm_num

/-- A machine word out of its bytes. -/
def leBits (w : ℕ) (bs : List UInt8) : BitVec w := BitVec.ofNat w (ofLe bs)

/-- Writing `n` bytes of a word and reading a word of `n` bytes truncates. -/
theorem leBits_le {n w : ℕ} (hw : w = 8 * n) {u : ℕ} (v : BitVec u) :
    leBits w (le n v.toNat) = v.setWidth w := by
  apply BitVec.eq_of_toNat_eq
  simp [leBits, ofLe_le, pow_256 hw, BitVec.toNat_setWidth]

/-- A number in the lower half of a word's values is its signed reading too. -/
theorem toInt_ofNat_of_lt {w n : ℕ} (h : 2 * n < 2 ^ w) : (BitVec.ofNat w n).toInt = n := by
  rw [BitVec.toInt_eq_toNat_cond, BitVec.toNat_ofNat, Nat.mod_eq_of_lt (by omega), if_pos h]

/-- A signed narrowing keeps exactly the values the narrow type has. -/
theorem toInt_setWidth_eq_iff {w n : ℕ} (h0 : 0 < n) (h : n ≤ w) (v : BitVec w) :
    (v.setWidth n).toInt = v.toInt ↔ -2 ^ (n - 1) ≤ v.toInt ∧ v.toInt < 2 ^ (n - 1) := by
  constructor
  · intro heq
    rw [← heq]
    exact ⟨BitVec.le_toInt _, BitVec.toInt_lt⟩
  · rintro ⟨hlow, hhigh⟩
    have hpow : (2 : ℤ) ^ n = 2 ^ (n - 1) * 2 := by
      rw [← pow_succ, Nat.sub_add_cancel h0]
    rw [← BitVec.signExtend_eq_setWidth_of_le v h, BitVec.toInt_signExtend_eq_toInt_bmod_of_le v h]
    apply Int.bmod_eq_of_le
    · push_cast
      omega
    · push_cast
      omega

/-! ## Big endian -/

def be (n v : ℕ) : List UInt8 := (le n v).reverse

def beBits (w : ℕ) (bs : List UInt8) : BitVec w := leBits w bs.reverse

@[simp] theorem length_be (n v : ℕ) : (be n v).length = n := by simp [be]

theorem beBits_be {n w : ℕ} (hw : w = 8 * n) (v : BitVec w) : beBits w (be n v.toNat) = v := by
  rw [beBits, be, List.reverse_reverse, leBits_le hw, BitVec.setWidth_eq]

/-! ## Reads -/

/-- The next `n` bytes and the rest, when there are that many. -/
def readN (n : ℕ) (bs : List UInt8) : Option (List UInt8 × List UInt8) :=
  if n ≤ bs.length then some (bs.take n, bs.drop n) else none

theorem readN_append {n : ℕ} {xs : List UInt8} (h : xs.length = n) (ys : List UInt8) :
    readN n (xs ++ ys) = some (xs, ys) := by
  subst h
  simp [readN]

theorem readN_all {n : ℕ} {xs : List UInt8} (h : xs.length = n) : readN n xs = some (xs, []) := by
  have happ := readN_append h []
  rwa [List.append_nil] at happ

theorem readN_eq_some {n : ℕ} {bs xs ys : List UInt8} :
    readN n bs = some (xs, ys) ↔ bs = xs ++ ys ∧ xs.length = n := by
  constructor
  · intro h
    unfold readN at h
    split at h
    · rename_i hn
      simp only [Option.some.injEq, Prod.mk.injEq] at h
      rcases h with ⟨rfl, rfl⟩
      exact ⟨(List.take_append_drop n bs).symm, by simp [hn]⟩
    · cases h
  · rintro ⟨rfl, h⟩
    exact readN_append h ys

/-- More bytes behind what was read change nothing but the rest. -/
theorem readN_extend {n : ℕ} {bs xs rest : List UInt8} (h : readN n bs = some (xs, rest))
    (more : List UInt8) : readN n (bs ++ more) = some (xs, rest ++ more) := by
  obtain ⟨rfl, hlen⟩ := readN_eq_some.mp h
  rw [List.append_assoc]
  exact readN_append hlen _

/-! ## Copies into a buffer -/

/-- `memcpy` of `bs` to offset `pos`. -/
def overwrite (buf : List UInt8) (pos : ℕ) (bs : List UInt8) : List UInt8 :=
  buf.take pos ++ bs ++ buf.drop (pos + bs.length)

theorem take_overwrite {buf : List UInt8} {pos : ℕ} {bs : List UInt8} (h : pos ≤ buf.length) :
    (overwrite buf pos bs).take (pos + bs.length) = buf.take pos ++ bs := by
  have hlen : (buf.take pos ++ bs).length = pos + bs.length := by simp [h]
  rw [overwrite, ← hlen, List.take_left]

theorem length_le_overwrite {buf : List UInt8} {pos : ℕ} (h : pos ≤ buf.length)
    (bs : List UInt8) : buf.length ≤ (overwrite buf pos bs).length := by
  simp only [overwrite, List.length_append, List.length_take, List.length_drop]
  omega

theorem overwrite_nil (buf : List UInt8) (pos : ℕ) : overwrite buf pos [] = buf := by
  simp [overwrite]

theorem ofLe_lt (bs : List UInt8) : ofLe bs < 256 ^ bs.length := by
  induction bs with
  | nil => simp [ofLe]
  | cons b bs ih =>
      have hb := b.toNat_lt
      rw [ofLe, List.length_cons, pow_succ']
      omega

/-- A copy right behind what is already in place. -/
theorem prefix_overwrite {pre buf : List UInt8} {pos : ℕ} (h : pre <+: buf)
    (hpos : pre.length = pos) (bs : List UInt8) : pre ++ bs <+: overwrite buf pos bs := by
  rcases h with ⟨rest, rfl⟩
  subst hpos
  rw [overwrite, List.take_left]
  exact List.prefix_append _ _

/-- A copy over as many bytes at the front. -/
theorem overwrite_front {xs ys bs : List UInt8} (h : xs.length = bs.length) :
    overwrite (xs ++ ys) 0 bs = bs ++ ys := by
  rw [overwrite, List.take_zero, List.nil_append, Nat.zero_add, ← h, List.drop_left]

/-- A copy behind the front leaves the front. -/
theorem overwrite_behind {xs ys bs : List UInt8} {pos : ℕ} (h : xs.length ≤ pos) :
    overwrite (xs ++ ys) pos bs = xs ++ overwrite ys (pos - xs.length) bs := by
  have hrest : pos + bs.length - xs.length = pos - xs.length + bs.length := by omega
  have hall : (xs ++ ys).drop (pos + bs.length) = ys.drop (pos - xs.length + bs.length) := by
    rw [List.drop_append, List.drop_of_length_le (by omega), List.nil_append, hrest]
  rw [overwrite, hall, List.take_append, List.take_of_length_le h, overwrite]
  simp only [List.append_assoc]

theorem ofLe_append (xs ys : List UInt8) :
    ofLe (xs ++ ys) = ofLe xs + 256 ^ xs.length * ofLe ys := by
  induction xs with
  | nil => simp [ofLe]
  | cons x xs ih =>
      rw [List.cons_append, ofLe, ofLe, ih, List.length_cons, pow_succ']
      ring

/-- As many bytes are read as one number only. -/
theorem ofLe_inj {xs ys : List UInt8} (hlen : xs.length = ys.length) (h : ofLe xs = ofLe ys) :
    xs = ys := by
  induction xs generalizing ys with
  | nil => exact (List.length_eq_zero_iff.mp hlen.symm).symm
  | cons x xs ih =>
      cases ys with
      | nil => cases hlen
      | cons y ys =>
          rw [ofLe, ofLe] at h
          have hx := x.toNat_lt
          have hy := y.toNat_lt
          have hhead : x = y := UInt8.toNat_inj.mp (by omega)
          rw [hhead, ih (Nat.succ.inj hlen) (by omega)]

theorem leBits_inj {n w : ℕ} (hw : w = 8 * n) {xs ys : List UInt8} (hx : xs.length = n)
    (hy : ys.length = n) (h : leBits w xs = leBits w ys) : xs = ys := by
  have hxs := ofLe_lt xs
  have hys := ofLe_lt ys
  rw [hx, pow_256 hw] at hxs
  rw [hy, pow_256 hw] at hys
  have hnat := congrArg BitVec.toNat h
  rw [leBits, leBits, BitVec.toNat_ofNat, BitVec.toNat_ofNat, Nat.mod_eq_of_lt hxs,
    Nat.mod_eq_of_lt hys] at hnat
  exact ofLe_inj (hx.trans hy.symm) hnat

theorem be_beBits {n w : ℕ} (hw : w = 8 * n) {xs : List UInt8} (h : xs.length = n) :
    be n (beBits w xs).toNat = xs := by
  have hback : beBits w (be n (beBits w xs).toNat) = beBits w xs := beBits_be hw _
  have hrev := leBits_inj hw (by rw [List.length_reverse, length_be])
    (by rw [List.length_reverse, h]) hback
  exact List.reverse_injective hrev

theorem le_prefix_ofLe {n : ℕ} {xs : List UInt8} (h : xs.length ≤ n) : xs <+: le n (ofLe xs) := by
  induction xs generalizing n with
  | nil => exact List.nil_prefix
  | cons x xs ih =>
      cases n with
      | zero => cases h
      | succ n =>
          have hx := x.toNat_lt
          have hdiv : (x.toNat + 256 * ofLe xs) / 256 = ofLe xs := by omega
          have hbyte : UInt8.ofNat (x.toNat + 256 * ofLe xs) = x := by
            apply UInt8.toNat_inj.mp
            rw [UInt8.toNat_ofNat']
            omega
          rw [ofLe, le, hdiv, hbyte, List.prefix_cons_inj]
          exact ih (Nat.le_of_succ_le_succ h)

theorem drop_le (n v k : ℕ) : (le n v).drop k = le (n - k) (v / 256 ^ k) := by
  induction k generalizing n v with
  | zero => simp
  | succ k ih =>
      cases n with
      | zero => simp [le]
      | succ n =>
          rw [le, List.drop_succ_cons, ih, Nat.div_div_eq_div_mul, ← pow_succ',
            Nat.succ_sub_succ]

/-- A copy over the low bytes of a word whose other bytes are zero. -/
theorem ofLe_low {n v : ℕ} {bs : List UInt8} (h : v < 256 ^ bs.length) :
    ofLe (bs ++ (le n v).drop bs.length) = ofLe bs := by
  have hzero : v / 256 ^ bs.length = 0 := Nat.div_eq_of_lt h
  rw [ofLe_append, drop_le, hzero, ofLe_le, Nat.zero_mod, Nat.mul_zero, Nat.add_zero]

/-! ## C strings -/

/-- The bytes before the first NUL of the first `window` bytes, and what follows
that NUL; `none` when the window holds no NUL. -/
def cString (window : ℕ) (bs : List UInt8) : Option (List UInt8 × List UInt8) :=
  match window, bs with
  | 0, _ => none
  | _, [] => none
  | n + 1, b :: bs =>
      if b = 0 then some ([], bs)
      else (cString n bs).map fun p => (b :: p.1, p.2)

theorem cString_append {window : ℕ} {s : List UInt8} (hlen : s.length < window)
    (hs : 0 ∉ s) (rest : List UInt8) :
    cString window (s ++ 0 :: rest) = some (s, rest) := by
  induction s generalizing window with
  | nil =>
      cases window with
      | zero => simp at hlen
      | succ n => simp [cString]
  | cons b s ih =>
      cases window with
      | zero => simp at hlen
      | succ n =>
          have hb : b ≠ 0 := fun h => hs (h ▸ List.mem_cons_self)
          have hlen' : s.length < n := by simpa using hlen
          have hrec := ih hlen' (fun h => hs (List.mem_cons_of_mem _ h))
          simp [cString, hb, hrec]

theorem cString_eq_some_iff {window : ℕ} {bs s rest : List UInt8} :
    cString window bs = some (s, rest) ↔ bs = s ++ 0 :: rest ∧ s.length < window ∧ 0 ∉ s := by
  constructor
  · intro h
    induction window generalizing bs s with
    | zero => simp [cString] at h
    | succ n ih =>
        cases bs with
        | nil => simp [cString] at h
        | cons b bs =>
            rw [cString] at h
            split at h
            · rename_i hb
              simp only [Option.some.injEq, Prod.mk.injEq] at h
              rcases h with ⟨rfl, rfl⟩
              exact ⟨by rw [hb, List.nil_append], Nat.succ_pos n, List.not_mem_nil⟩
            · rename_i hb
              obtain ⟨⟨s', rest'⟩, hrec, heq⟩ := Option.map_eq_some_iff.mp h
              simp only [Prod.mk.injEq] at heq
              rcases heq with ⟨rfl, rfl⟩
              obtain ⟨rfl, hlen, hnul⟩ := ih hrec
              refine ⟨rfl, Nat.succ_lt_succ hlen, ?_⟩
              rw [List.mem_cons, not_or]
              exact ⟨fun h0 => hb h0.symm, hnul⟩
  · rintro ⟨rfl, hlen, hnul⟩
    exact cString_append hlen hnul rest

theorem cString_eq_none_iff {window : ℕ} {bs : List UInt8} :
    cString window bs = none ↔ 0 ∉ bs.take window := by
  induction window generalizing bs with
  | zero => simp [cString]
  | succ n ih =>
      cases bs with
      | nil => simp [cString]
      | cons b bs =>
          rw [cString, List.take_succ_cons, List.mem_cons, not_or]
          split
          · rename_i hb
            simp [hb]
          · rename_i hb
            rw [Option.map_eq_none_iff, ih]
            exact ⟨fun h => ⟨fun h0 => hb h0.symm, h⟩, fun h => h.2⟩

theorem cString_extend {window : ℕ} {bs s rest : List UInt8}
    (h : cString window bs = some (s, rest)) (more : List UInt8) :
    cString window (bs ++ more) = some (s, rest ++ more) := by
  induction window generalizing bs s with
  | zero => simp [cString] at h
  | succ n ih =>
      cases bs with
      | nil => simp [cString] at h
      | cons b bs =>
          rw [cString] at h
          rw [List.cons_append, cString]
          split at h
          · rename_i hb
            simp only [Option.some.injEq, Prod.mk.injEq] at h
            rcases h with ⟨rfl, rfl⟩
            rw [if_pos hb]
          · rename_i hb
            obtain ⟨⟨s', rest'⟩, hrec, heq⟩ := Option.map_eq_some_iff.mp h
            simp only [Prod.mk.injEq] at heq
            rcases heq with ⟨rfl, rfl⟩
            rw [if_neg hb, ih hrec]
            rfl

/-- The next `n` strings, and what follows the last NUL. -/
def cStrings (window : ℕ) : ℕ → List UInt8 → Option (List (List UInt8) × List UInt8)
  | 0, bs => some ([], bs)
  | n + 1, bs => do
      let (s, bs) ← cString window bs
      let (ss, bs) ← cStrings window n bs
      return (s :: ss, bs)

theorem cStrings_append {window : ℕ} {ss : List (List UInt8)}
    (h : ∀ s ∈ ss, s.length < window ∧ 0 ∉ s) (rest : List UInt8) :
    cStrings window ss.length ((ss.map (· ++ [0])).flatten ++ rest) = some (ss, rest) := by
  induction ss with
  | nil => rfl
  | cons s ss ih =>
      obtain ⟨hlen, hnul⟩ := h s List.mem_cons_self
      have hrest := ih fun t ht => h t (List.mem_cons_of_mem _ ht)
      have hfirst := cString_append hlen hnul ((ss.map (· ++ [0])).flatten ++ rest)
      simp only [List.map_cons, List.flatten_cons, List.append_assoc, List.cons_append,
        List.nil_append, List.length_cons, cStrings, hfirst, hrest, Option.bind_eq_bind,
        Option.bind_some]
      rfl

theorem length_cStrings (ss : List (List UInt8)) :
    (ss.map (· ++ [0])).flatten.length = (ss.map fun s => s.length + 1).sum := by
  rw [List.length_flatten, List.map_map]
  congr 1
  exact List.map_congr_left fun s _ => by simp

end Foundation.Bytes

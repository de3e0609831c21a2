import Mathlib.Data.Int.Notation
import Mathlib.Data.List.Infix

/-!
# Keys as texts

Keys that are written as fields with a separator between them, the numbers in decimal,
and looked up by the text they begin with. A field that cannot hold the separator is
recovered from any text it begins; a `LIKE` on it is a prefix test, and lower case does
not change it when its characters have no case.
-/

namespace Foundation.TextKeys

/-! ## Decimal numbers -/

def decimal : ℤ → List Char
  | .ofNat n => Nat.toDigits 10 n
  | .negSucc n => '-' :: Nat.toDigits 10 (n + 1)

@[simp] theorem decimal_natCast (n : ℕ) : decimal n = Nat.toDigits 10 n := rfl

theorem digits_injective : Function.Injective (Nat.toDigits 10) := by
  intro m n h
  have hvalue := congrArg (fun digits => Nat.ofDigitChars 10 digits 0) h
  simpa only [Nat.ofDigitChars_ten_toDigits] using hvalue

theorem isDigit_of_mem_digits {n : ℕ} {c : Char} (h : c ∈ Nat.toDigits 10 n) :
    c.isDigit = true :=
  Nat.isDigit_of_mem_toDigits (by decide) (by decide) h

theorem dash_notMem_digits (n : ℕ) : '-' ∉ Nat.toDigits 10 n := by
  intro h
  exact absurd (isDigit_of_mem_digits h) (by decide)

/-! ## The first field -/

/-- A text that begins with a field and the separator has that first field. -/
theorem field_prefix_iff {sep : Char} {xs ys rest : List Char} (hxs : sep ∉ xs)
    (hys : sep ∉ ys) : xs ++ [sep] <+: ys ++ sep :: rest ↔ xs = ys := by
  induction xs generalizing ys with
  | nil =>
      cases ys with
      | nil => simp
      | cons y ys =>
          rw [List.nil_append, List.cons_append, List.cons_prefix_cons]
          apply iff_of_false
          · rintro ⟨rfl, _⟩
            exact hys List.mem_cons_self
          · exact List.cons_ne_nil y ys |>.symm
  | cons x xs ih =>
      cases ys with
      | nil =>
          rw [List.nil_append, List.cons_append, List.cons_prefix_cons]
          apply iff_of_false
          · rintro ⟨rfl, _⟩
            exact hxs List.mem_cons_self
          · exact List.cons_ne_nil x xs
      | cons y ys =>
          rw [List.cons_append, List.cons_append, List.cons_prefix_cons, List.cons.injEq,
            ih (fun h => hxs (List.mem_cons_of_mem x h)) (fun h => hys (List.mem_cons_of_mem y h))]

/-! ## `LIKE` -/

/-- `%` is any text and `_` any character; a backslash takes the next character as it is. -/
def like : List Char → List Char → Bool
  | [] => fun s => s.isEmpty
  | '%' :: p => fun s => s.tails.any (like p)
  | '_' :: p => fun s =>
      match s with
      | [] => false
      | _ :: s => like p s
  | '\\' :: c :: p => fun s =>
      match s with
      | [] => false
      | d :: s => c == d && like p s
  | c :: p => fun s =>
      match s with
      | [] => false
      | d :: s => c == d && like p s

/-- A character that stands for itself in a pattern. -/
def Literal (c : Char) : Prop := c ≠ '%' ∧ c ≠ '_' ∧ c ≠ '\\'

theorem like_cons {c : Char} (hc : Literal c) (p s : List Char) :
    like (c :: p) s = true ↔ ∃ rest, s = c :: rest ∧ like p rest = true := by
  rw [like.eq_5 c p hc.1 hc.2.1 (fun d q h _ => hc.2.2 h)]
  cases s with
  | nil =>
      apply iff_of_false Bool.false_ne_true
      rintro ⟨rest, h, _⟩
      cases h
  | cons d s =>
      rw [Bool.and_eq_true, beq_iff_eq]
      constructor
      · rintro ⟨rfl, hrest⟩
        exact ⟨s, rfl, hrest⟩
      · rintro ⟨rest, h, hrest⟩
        cases h
        exact ⟨rfl, hrest⟩

/-- A literal text and `%`: what begins with the text. -/
theorem like_prefix_iff {p : List Char} (hp : ∀ c ∈ p, Literal c) (s : List Char) :
    like (p ++ ['%']) s = true ↔ p <+: s := by
  induction p generalizing s with
  | nil =>
      refine iff_of_true ?_ List.nil_prefix
      exact List.any_eq_true.mpr ⟨[], (List.mem_tails _ _).mpr List.nil_suffix, rfl⟩
  | cons c p ih =>
      rw [List.cons_append, like_cons (hp c List.mem_cons_self)]
      constructor
      · rintro ⟨rest, rfl, hrest⟩
        rw [List.cons_prefix_cons]
        exact ⟨rfl, (ih (fun d hd => hp d (List.mem_cons_of_mem c hd)) rest).mp hrest⟩
      · intro h
        cases s with
        | nil => exact absurd (List.prefix_nil.mp h) (List.cons_ne_nil c p)
        | cons d s =>
            rw [List.cons_prefix_cons] at h
            obtain ⟨rfl, hrest⟩ := h
            exact ⟨s, rfl, (ih (fun d hd => hp d (List.mem_cons_of_mem c hd)) s).mpr hrest⟩

/-! ## Lower case -/

/-- A conversion to lower case that leaves the characters of `plain` alone and makes none of
them out of another. -/
structure Lowers (plain : Char → Prop) (lower : List Char → List Char) : Prop where
  keeps : ∀ c s, plain c → lower (c :: s) = c :: lower s
  makes_none : ∀ c s, ¬ plain c → ∀ d t, lower (c :: s) = d :: t → ¬ plain d
  nil : lower [] = []

theorem Lowers.prefix_iff {plain : Char → Prop} {lower : List Char → List Char}
    (h : Lowers plain lower) {p : List Char} (hp : ∀ c ∈ p, plain c) (s : List Char) :
    p <+: lower s ↔ p <+: s := by
  induction p generalizing s with
  | nil => exact iff_of_true List.nil_prefix List.nil_prefix
  | cons c p ih =>
      have hplain := hp c List.mem_cons_self
      have htail := ih fun d hd => hp d (List.mem_cons_of_mem c hd)
      cases s with
      | nil => rw [h.nil]
      | cons d s =>
          by_cases hd : plain d
          · rw [h.keeps d s hd, List.cons_prefix_cons, List.cons_prefix_cons, htail]
          · apply iff_of_false
            · rintro ⟨rest, hrest⟩
              exact h.makes_none d s hd c (p ++ rest) hrest.symm hplain
            · intro hprefix
              rw [List.cons_prefix_cons] at hprefix
              obtain ⟨rfl, _⟩ := hprefix
              exact hd hplain

end Foundation.TextKeys

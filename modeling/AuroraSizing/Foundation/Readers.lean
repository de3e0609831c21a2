import Mathlib.Data.List.Basic

/-!
# Readers of a word off the front

`Reads p w a` says that `p` reads `a` off exactly the word `w`, whatever comes behind it, and
fails on all that stops short of `w`. One reader after another reads one word behind the
other, so no format made of such readers takes a value that was cut off for a whole one.
-/

namespace Foundation.Readers

/-- A value off the front of the list, and the rest. -/
abbrev Reader (σ ε : Type) := StateT (List σ) (Except ε)

variable {σ ε α β : Type}

structure Reads (p : Reader σ ε α) (w : List σ) (a : α) : Prop where
  whole : ∀ rest, p (w ++ rest) = .ok (a, rest)
  short : ∀ q, q <+: w → q ≠ w → ∃ e, p q = .error e

theorem reads_pure (a : α) : Reads (pure a : Reader σ ε α) [] a := by
  refine ⟨fun rest => rfl, ?_⟩
  intro q hq hne
  exact absurd (List.prefix_nil.mp hq) hne

theorem bind_eq_ok {p : Reader σ ε α} {f : α → Reader σ ε β} {bs rest : List σ} {b : β} :
    (p >>= f) bs = .ok (b, rest) ↔
      ∃ a bs', p bs = .ok (a, bs') ∧ f a bs' = .ok (b, rest) := by
  show (p bs >>= fun x => f x.1 x.2) = _ ↔ _
  cases p bs with
  | ok x =>
      constructor
      · intro h
        exact ⟨x.1, x.2, rfl, h⟩
      · rintro ⟨a, bs', heq, h⟩
        cases heq
        exact h
  | error e =>
      constructor
      · intro h
        cases h
      · rintro ⟨a, bs', heq, -⟩
        cases heq

theorem bind_of_ok {p : Reader σ ε α} {f : α → Reader σ ε β} {bs bs' : List σ} {a : α}
    (h : p bs = .ok (a, bs')) : (p >>= f) bs = f a bs' := by
  show (p bs >>= fun x => f x.1 x.2) = _
  rw [h]
  rfl

theorem bind_of_error {p : Reader σ ε α} {f : α → Reader σ ε β} {bs : List σ} {e : ε}
    (h : p bs = .error e) : (p >>= f) bs = .error e := by
  show (p bs >>= fun x => f x.1 x.2) = _
  rw [h]
  rfl

/-- The chain of readers as one of results. -/
theorem map_bind_eq {γ : Type} (p : Reader σ ε α) (f : α → Reader σ ε β) (g : β × List σ → γ)
    (bs : List σ) :
    ((p >>= f) bs).map g = p bs >>= fun x => (f x.1 x.2).map g := by
  cases h : p bs with
  | ok x =>
      rw [bind_of_ok h]
      rfl
  | error e =>
      rw [bind_of_error h]
      rfl

/-- What stops short in the second word has read the first. -/
theorem Reads.bind {p : Reader σ ε α} {f : α → Reader σ ε β} {w w' : List σ} {a : α} {b : β}
    (hp : Reads p w a) (hf : Reads (f a) w' b) : Reads (p >>= f) (w ++ w') b := by
  constructor
  · intro rest
    rw [List.append_assoc, bind_of_ok (hp.whole _)]
    exact hf.whole rest
  · intro q hq hne
    rcases List.prefix_or_prefix_of_prefix hq (List.prefix_append w w') with hshort | ⟨q', rfl⟩
    · by_cases hw : q = w
      · -- the second word is still to come
        have hall := bind_of_ok (f := f) (hp.whole [])
        rw [List.append_nil] at hall
        rw [hw, hall]
        refine hf.short [] List.nil_prefix ?_
        rintro rfl
        exact hne (by rw [hw, List.append_nil])
      · obtain ⟨e, he⟩ := hp.short q hshort hw
        exact ⟨e, bind_of_error he⟩
    · rw [bind_of_ok (hp.whole q')]
      refine hf.short q' ((List.prefix_append_right_inj w).mp hq) ?_
      rintro rfl
      exact hne rfl

end Foundation.Readers

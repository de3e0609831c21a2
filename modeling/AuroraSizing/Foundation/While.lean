import Mathlib.Data.Nat.Notation

/-!
# While loops

A loop that is given so many turns: `none` is a loop that is not over by then, or a body that
raised. `whileLoop_spec` is the rule of the invariant, and `whileLoop_sim` that of two loops that go
along with each other. `Looping` tells a loop that is not over from an exception.
-/

namespace Foundation.While

variable {σ : Type*}

def whileLoop (cond : σ → Bool) (body : σ → Option σ) : ℕ → σ → Option σ
  | 0, s => if cond s then none else some s
  | n + 1, s => if cond s then (body s).bind (whileLoop cond body n) else some s

theorem whileLoop_spec {cond : σ → Bool} {body : σ → Option σ} {Inv : σ → Prop}
    (hbody : ∀ s t, Inv s → cond s = true → body s = some t → Inv t) {n : ℕ} {s t : σ}
    (hs : Inv s) (h : whileLoop cond body n s = some t) : Inv t ∧ cond t = false := by
  induction n generalizing s with
  | zero =>
      rw [whileLoop] at h
      split at h
      case isTrue => cases h
      case isFalse hcond =>
        cases h
        exact ⟨hs, by simpa using hcond⟩
  | succ n ih =>
      rw [whileLoop] at h
      split at h
      case isTrue hcond =>
        obtain ⟨s', hs', hrest⟩ := Option.bind_eq_some_iff.mp h
        exact ih (hbody s s' hs hcond hs') hrest
      case isFalse hcond =>
        cases h
        exact ⟨hs, by simpa using hcond⟩

/-- A step of the first loop may be used with what the loop still does after it. -/
theorem whileLoop_sim {τ : Type*} {cond : σ → Bool} {body : σ → Option σ} {cond' : τ → Bool}
    {body' : τ → Option τ} {R : σ → τ → Prop} {t : σ}
    (hcond : ∀ s s', R s s' → cond s = cond' s')
    (hbody : ∀ s s' u n, R s s' → cond s = true → body s = some u →
      whileLoop cond body n u = some t → ∃ u', body' s' = some u' ∧ R u u')
    {n : ℕ} {s : σ} {s' : τ} (hs : R s s') (h : whileLoop cond body n s = some t) :
    ∃ t', whileLoop cond' body' n s' = some t' ∧ R t t' := by
  induction n generalizing s s' with
  | zero =>
      rw [whileLoop] at h ⊢
      rw [hcond s s' hs] at h
      split at h
      case isTrue => cases h
      case isFalse hover =>
        cases h
        rw [if_neg hover]
        exact ⟨s', rfl, hs⟩
  | succ n ih =>
      rw [whileLoop] at h ⊢
      split at h
      case isTrue hmore =>
        obtain ⟨u, hu, hrest⟩ := Option.bind_eq_some_iff.mp h
        obtain ⟨u', hu', hR⟩ := hbody s s' u n hs hmore hu hrest
        rw [if_pos (hcond s s' hs ▸ hmore), hu']
        exact ih hR hrest
      case isFalse hover =>
        rw [hcond s s' hs] at hover
        cases h
        rw [if_neg hover]
        exact ⟨s', rfl, hs⟩

/-! ## Exceptions -/

/-- Code with loops that may raise an `ε`; `none` is a loop that is not over. -/
abbrev Looping (ε : Type) := ExceptT ε Option

variable {ε α β ρ : Type}

theorem lift_ok_iff {x : Option α} {a : α} :
    (liftM x : Looping ε α) = some (.ok a) ↔ x = some a := by
  constructor
  · intro h
    cases x with
    | none => cases h
    | some b =>
        cases h
        rfl
  · intro h
    rw [h]
    rfl

theorem lift_ne_error {x : Option α} {e : ε} : (liftM x : Looping ε α) ≠ some (.error e) := by
  intro h
  cases x with
  | none => cases h
  | some b => cases h

theorem bind_ok_iff {x : Looping ε α} {f : α → Looping ε β} {b : β} :
    x >>= f = some (.ok b) ↔ ∃ a, x = some (.ok a) ∧ f a = some (.ok b) := by
  constructor
  · intro h
    rcases x with _ | e | a
    · cases h
    · cases h
    · exact ⟨a, rfl, h⟩
  · rintro ⟨a, rfl, h⟩
    exact h

theorem bind_error {x : Looping ε α} {f : α → Looping ε β} {e : ε}
    (h : x >>= f = some (.error e)) :
    x = some (.error e) ∨ ∃ a, x = some (.ok a) ∧ f a = some (.error e) := by
  rcases x with _ | e' | a
  · cases h
  · cases h
    exact Or.inl rfl
  · exact Or.inr ⟨a, rfl, h⟩

/-- A loop over a list, without an exception. -/
theorem foldlM_ok_iff {f : α → ρ → Looping ε α} {g : α → ρ → Option α}
    (hstep : ∀ s r t, f s r = some (.ok t) ↔ g s r = some t) {rows : List ρ} {s t : α} :
    rows.foldlM f s = some (.ok t) ↔ rows.foldlM g s = some t := by
  induction rows generalizing s with
  | nil =>
      constructor
      · intro h
        cases h
        rfl
      · intro h
        cases h
        rfl
  | cons r rows ih =>
      rw [List.foldlM_cons, List.foldlM_cons, bind_ok_iff]
      refine Iff.trans ?_ Option.bind_eq_some_iff.symm
      simp only [hstep, ih]

theorem foldlM_error {f : α → ρ → Looping ε α} {rows : List ρ} {s : α} {e : ε}
    (h : rows.foldlM f s = some (.error e)) : ∃ r ∈ rows, ∃ t, f t r = some (.error e) := by
  induction rows generalizing s with
  | nil => cases h
  | cons r rows ih =>
      rw [List.foldlM_cons] at h
      rcases bind_error h with h | ⟨t, -, h⟩
      · exact ⟨r, List.mem_cons_self, s, h⟩
      · obtain ⟨r', hr', t', h⟩ := ih h
        exact ⟨r', List.mem_cons_of_mem _ hr', t', h⟩

end Foundation.While

import Mathlib.Algebra.GroupWithZero.Nat
import Mathlib.Data.List.Basic

/-!
# Runs of a step function

A system is a partial step function on states, driven by events; `none` is an
event the state does not allow. `run_invariant` and `run_preserves` are the
induction every safety result over whole runs goes through. `Along` restricts the
runs to events that meet a condition in the state they happen in.
-/

namespace Foundation.System

variable {σ ε : Type*}

def run (step : σ → ε → Option σ) : σ → List ε → Option σ
  | s, [] => some s
  | s, e :: es => (step s e).bind fun s' => run step s' es

/-- Every event of the run meets `ok` in the state before it. -/
def Along (step : σ → ε → Option σ) (ok : σ → ε → Prop) : σ → List ε → Prop
  | _, [] => True
  | s, e :: es => ok s e ∧
      match step s e with
      | some s' => Along step ok s' es
      | none => True

variable {step : σ → ε → Option σ}

instance Along.decidable {ok : σ → ε → Prop} [∀ s e, Decidable (ok s e)] :
    ∀ (es : List ε) (s : σ), Decidable (Along step ok s es)
  | [], _ => isTrue trivial
  | e :: es, s =>
      match hs : step s e with
      | some s' =>
          have : Decidable (Along step ok s' es) := Along.decidable es s'
          decidable_of_iff (ok s e ∧ Along step ok s' es) (by rw [Along, hs])
      | none => decidable_of_iff (ok s e) (by rw [Along, hs, and_true])

theorem run_nil_eq_some {s t : σ} : run step s [] = some t ↔ s = t := Option.some_inj

theorem run_cons_eq_some {s t : σ} {e : ε} {es : List ε} :
    run step s (e :: es) = some t ↔ ∃ s', step s e = some s' ∧ run step s' es = some t :=
  Option.bind_eq_some_iff

theorem run_append_eq_some {s t : σ} {es fs : List ε} :
    run step s (es ++ fs) = some t ↔ ∃ s', run step s es = some s' ∧ run step s' fs = some t := by
  induction es generalizing s with
  | nil => simp [run]
  | cons e es ih =>
      rw [List.cons_append, run_cons_eq_some]
      constructor
      · rintro ⟨s₁, hs₁, hrest⟩
        obtain ⟨s', hrun, hfs⟩ := ih.mp hrest
        exact ⟨s', run_cons_eq_some.mpr ⟨s₁, hs₁, hrun⟩, hfs⟩
      · rintro ⟨s', hrun, hfs⟩
        obtain ⟨s₁, hs₁, hrest⟩ := run_cons_eq_some.mp hrun
        exact ⟨s₁, hs₁, ih.mpr ⟨s', hrest, hfs⟩⟩

theorem Along.cons {ok : σ → ε → Prop} {s s' : σ} {e : ε} {es : List ε} (hok : ok s e)
    (hstep : step s e = some s') (h : Along step ok s' es) : Along step ok s (e :: es) := by
  rw [Along, hstep]
  exact ⟨hok, h⟩

theorem Along.tail {ok : σ → ε → Prop} {s s' : σ} {e : ε} {es : List ε}
    (h : Along step ok s (e :: es)) (hstep : step s e = some s') : Along step ok s' es := by
  have hafter := h.2
  rwa [hstep] at hafter

theorem Along.of_forall {ok : σ → ε → Prop} {es : List ε} (h : ∀ e ∈ es, ∀ s, ok s e) (s : σ) :
    Along step ok s es := by
  induction es generalizing s with
  | nil => exact trivial
  | cons e es ih =>
      refine ⟨h e List.mem_cons_self s, ?_⟩
      cases step s e with
      | some s' => exact ih (fun e he => h e (List.mem_cons_of_mem _ he)) s'
      | none => exact trivial

theorem Along.mono {ok ok' : σ → ε → Prop} {s : σ} {es : List ε} (h : Along step ok s es)
    (himp : ∀ s e, ok s e → ok' s e) : Along step ok' s es := by
  induction es generalizing s with
  | nil => trivial
  | cons e es ih =>
      refine ⟨himp s e h.1, ?_⟩
      cases hs : step s e with
      | none => trivial
      | some s' => exact ih (h.tail hs)

theorem Along.append {ok : σ → ε → Prop} {s t : σ} {es fs : List ε} (hes : Along step ok s es)
    (hrun : run step s es = some t) (hfs : Along step ok t fs) : Along step ok s (es ++ fs) := by
  induction es generalizing s with
  | nil =>
      obtain rfl : s = t := run_nil_eq_some.mp hrun
      exact hfs
  | cons e es ih =>
      obtain ⟨s', hs', hrest⟩ := run_cons_eq_some.mp hrun
      exact Along.cons hes.1 hs' (ih (hes.tail hs') hrest)

theorem Along.of_append {ok : σ → ε → Prop} {s : σ} {es fs : List ε}
    (h : Along step ok s (es ++ fs)) : Along step ok s es := by
  induction es generalizing s with
  | nil => trivial
  | cons e es ih =>
      refine ⟨h.1, ?_⟩
      cases hs : step s e with
      | none => trivial
      | some s' => exact ih (h.tail hs)

theorem run_invariant {Inv : σ → Prop} {ok : σ → ε → Prop}
    (hstep : ∀ s e s', Inv s → ok s e → step s e = some s' → Inv s') {s t : σ} {es : List ε}
    (hinit : Inv s) (hok : Along step ok s es) (hrun : run step s es = some t) : Inv t := by
  induction es generalizing s with
  | nil =>
      obtain rfl : s = t := run_nil_eq_some.mp hrun
      exact hinit
  | cons e es ih =>
      obtain ⟨s', hs', hrest⟩ := run_cons_eq_some.mp hrun
      exact ih (hstep s e s' hinit hok.1 hs') (hok.tail hs') hrest

theorem run_preserves {Inv : σ → Prop}
    (hstep : ∀ s e s', Inv s → step s e = some s' → Inv s') {s t : σ} {es : List ε}
    (hinit : Inv s) (hrun : run step s es = some t) : Inv t := by
  have hok : Along step (fun _ _ => True) s es := Along.of_forall (fun _ _ _ => trivial) s
  exact run_invariant (fun s e s' h _ => hstep s e s' h) hinit hok hrun

/-- An event that changes nothing may happen any number of times. -/
theorem run_replicate {s : σ} {e : ε} (hstep : step s e = some s) (n : ℕ) :
    run step s (List.replicate n e) = some s := by
  induction n with
  | zero => rfl
  | succ n ih =>
      rw [List.replicate_succ, run_cons_eq_some]
      exact ⟨s, hstep, ih⟩

/-- Events of a kind that each lower a measure are no more than the measure, if no other event
raises it. -/
theorem countP_run_le {Inv : σ → Prop} {measure : σ → ℕ} {p : ε → Bool}
    (hinv : ∀ s e s', Inv s → step s e = some s' → Inv s')
    (hstep : ∀ s e s', Inv s → step s e = some s' → (p e).toNat + measure s' ≤ measure s)
    {s t : σ} {es : List ε} (hinit : Inv s) (hrun : run step s es = some t) :
    es.countP p + measure t ≤ measure s := by
  induction es generalizing s with
  | nil =>
      obtain rfl : s = t := run_nil_eq_some.mp hrun
      exact Nat.le_of_eq (Nat.zero_add _)
  | cons e es ih =>
      obtain ⟨s', hs', hrest⟩ := run_cons_eq_some.mp hrun
      have hfirst := hstep s e s' hinit hs'
      have hle := ih (hinv s e s' hinit hs') hrest
      rw [List.countP_cons]
      cases hp : p e with
      | true =>
          rw [hp, Bool.toNat_true] at hfirst
          rw [if_pos rfl]
          omega
      | false =>
          rw [hp, Bool.toNat_false] at hfirst
          rw [if_neg Bool.false_ne_true]
          omega

/-- Events that each lower a measure come to an end. -/
theorem length_run_le {measure : σ → ℕ}
    (hstep : ∀ s e s', step s e = some s' → measure s' < measure s) {s t : σ} {es : List ε}
    (hrun : run step s es = some t) : es.length + measure t ≤ measure s := by
  have hall : es.countP (fun _ => true) = es.length := congrFun List.countP_true es
  rw [← hall]
  have hle : ∀ s e s', True → step s e = some s' → true.toNat + measure s' ≤ measure s := by
    intro s e s' _ hs'
    have hlt := hstep s e s' hs'
    rw [Bool.toNat_true]
    omega
  exact countP_run_le (fun _ _ _ _ _ => trivial) hle trivial hrun

/-- Two conditions that agree in the states of a run hold along it together. -/
theorem along_congr {Inv : σ → Prop} {ok ok' : σ → ε → Prop}
    (hstep : ∀ s e s', Inv s → step s e = some s' → Inv s')
    (hiff : ∀ s e s', Inv s → step s e = some s' → (ok s e ↔ ok' s e)) {s t : σ} {es : List ε}
    (hinit : Inv s) (hrun : run step s es = some t) :
    Along step ok s es ↔ Along step ok' s es := by
  induction es generalizing s with
  | nil => exact Iff.rfl
  | cons e es ih =>
      obtain ⟨s', hs', hrest⟩ := run_cons_eq_some.mp hrun
      have hfirst := hiff s e s' hinit hs'
      have hafter := ih (hstep s e s' hinit hs') hrest
      simp only [Along, hs', hfirst, hafter]

/-- A property that each step keeps exactly when it meets `cond` holds in every state of a
run exactly when the whole run meets `cond`. -/
theorem along_iff_forall_prefix (Inv : σ → Prop) {P : σ → Prop} {ok cond : σ → ε → Prop}
    (hstep : ∀ s e s', Inv s → ok s e → step s e = some s' → Inv s')
    (hcond : ∀ s e s', Inv s → ok s e → P s → step s e = some s' → (P s' ↔ cond s e))
    {s t : σ} {es : List ε} (hinit : Inv s) (hP : P s) (hok : Along step ok s es)
    (hrun : run step s es = some t) :
    (∀ es', es' <+: es → ∀ q, run step s es' = some q → P q) ↔ Along step cond s es := by
  induction es generalizing s with
  | nil =>
      refine ⟨fun _ => trivial, ?_⟩
      intro _ es' hes' q hq
      rw [List.prefix_nil.mp hes', run_nil_eq_some] at hq
      exact hq ▸ hP
  | cons e es ih =>
      obtain ⟨s', hs', hrest⟩ := run_cons_eq_some.mp hrun
      have hfirst := hcond s e s' hinit hok.1 hP hs'
      have hinit' := hstep s e s' hinit hok.1 hs'
      constructor
      · intro hall
        have hP' : P s' := hall [e] ⟨es, rfl⟩ s' (run_cons_eq_some.mpr ⟨s', hs', rfl⟩)
        refine Along.cons (hfirst.mp hP') hs' ?_
        apply (ih hinit' hP' (hok.tail hs') hrest).mp
        intro es' hes' q hq
        exact hall (e :: es') ((List.prefix_cons_inj e).mpr hes') q
          (run_cons_eq_some.mpr ⟨s', hs', hq⟩)
      · intro halong es' hes' q hq
        have hP' : P s' := hfirst.mpr halong.1
        cases es' with
        | nil => exact run_nil_eq_some.mp hq ▸ hP
        | cons e' es' =>
            obtain ⟨rfl, hprefix⟩ := List.cons_prefix_cons.mp hes'
            obtain ⟨r, hr, hafter⟩ := run_cons_eq_some.mp hq
            obtain rfl : s' = r := Option.some.inj (hs'.symm.trans hr)
            exact (ih hinit' hP' (hok.tail hs') hrest).mpr (halong.tail hs') es' hprefix q hafter

/-- How many events of the run meet `p` in the state before them. -/
def occurrences (step : σ → ε → Option σ) (p : σ → ε → Bool) : σ → List ε → ℕ
  | _, [] => 0
  | s, e :: es => (p s e).toNat +
      match step s e with
      | some s' => occurrences step p s' es
      | none => 0

/-- Events that each cost something are no more than what the run costs. -/
theorem occurrences_le {Inv : σ → Prop} {ok : σ → ε → Prop} {p : σ → ε → Bool} {cost : ε → ℕ}
    (hstep : ∀ s e s', Inv s → ok s e → step s e = some s' → Inv s')
    (hcost : ∀ s e s', Inv s → ok s e → step s e = some s' → p s e = true → 0 < cost e)
    {s t : σ} {es : List ε} (hinit : Inv s) (hok : Along step ok s es)
    (hrun : run step s es = some t) : occurrences step p s es ≤ (es.map cost).sum := by
  induction es generalizing s with
  | nil => exact Nat.le_refl 0
  | cons e es ih =>
      obtain ⟨s', hs', hrest⟩ := run_cons_eq_some.mp hrun
      have hrec := ih (hstep s e s' hinit hok.1 hs') (hok.tail hs') hrest
      have hfirst : (p s e).toNat ≤ cost e := by
        cases hp : p s e with
        | false => exact Nat.zero_le _
        | true => exact hcost s e s' hinit hok.1 hs' hp
      simp only [occurrences, hs', List.map_cons, List.sum_cons]
      omega

/-- At some event of the run, `p` holds of it and of the state before it. -/
def Occurs (step : σ → ε → Option σ) (p : σ → ε → Prop) (s : σ) (es : List ε) : Prop :=
  ∃ es₁ e es₂ s₁, es = es₁ ++ e :: es₂ ∧ run step s es₁ = some s₁ ∧ p s₁ e

theorem not_occurs_nil {p : σ → ε → Prop} {s : σ} : ¬ Occurs step p s [] := by
  rintro ⟨es₁, e, es₂, s₁, heq, _⟩
  exact List.append_ne_nil_of_right_ne_nil es₁ (List.cons_ne_nil e es₂) heq.symm

theorem occurs_cons {p : σ → ε → Prop} {s s' : σ} {e : ε} {es : List ε}
    (hstep : step s e = some s') : Occurs step p s (e :: es) ↔ p s e ∨ Occurs step p s' es := by
  constructor
  · rintro ⟨es₁, e₁, es₂, s₁, heq, hrun, hp⟩
    cases es₁ with
    | nil =>
        cases heq
        obtain rfl : s = s₁ := run_nil_eq_some.mp hrun
        exact .inl hp
    | cons e' es₁ =>
        cases heq
        obtain ⟨s'', hs'', hrest⟩ := run_cons_eq_some.mp hrun
        obtain rfl : s' = s'' := Option.some.inj (hstep.symm.trans hs'')
        exact .inr ⟨es₁, e₁, es₂, s₁, rfl, hrest, hp⟩
  · rintro (hp | ⟨es₁, e₁, es₂, s₁, rfl, hrun, hp⟩)
    · exact ⟨[], e, es, s, rfl, rfl, hp⟩
    · exact ⟨e :: es₁, e₁, es₂, s₁, rfl, run_cons_eq_some.mpr ⟨s', hstep, hrun⟩, hp⟩

/-- An invariant that also speaks of what has happened: `p x` is the occurrence of `x`, and
`H` what had occurred before the run. -/
theorem run_history {α : Type*} (Inv : (α → Prop) → σ → Prop) {ok : σ → ε → Prop}
    {p : α → σ → ε → Prop}
    (hstep : ∀ H s e s', Inv H s → ok s e → step s e = some s' → Inv (fun x => H x ∨ p x s e) s')
    {H : α → Prop} {s t : σ} {es : List ε} (hinit : Inv H s) (hok : Along step ok s es)
    (hrun : run step s es = some t) : Inv (fun x => H x ∨ Occurs step (p x) s es) t := by
  induction es generalizing H s with
  | nil =>
      obtain rfl : s = t := run_nil_eq_some.mp hrun
      have hsame : (fun x => H x ∨ Occurs step (p x) s []) = H :=
        funext fun x => propext (or_iff_left not_occurs_nil)
      rwa [hsame]
  | cons e es ih =>
      obtain ⟨s', hs', hrest⟩ := run_cons_eq_some.mp hrun
      have hafter := ih (hstep H s e s' hinit hok.1 hs') (hok.tail hs') hrest
      have hsame : (fun x => (H x ∨ p x s e) ∨ Occurs step (p x) s' es) =
          fun x => H x ∨ Occurs step (p x) s (e :: es) :=
        funext fun x => propext (by rw [occurs_cons hs', or_assoc])
      rwa [hsame] at hafter

/-! ## What a run shows -/

/-- What the events of the run show, each in the state before it. -/
def outputs {ω : Type*} (step : σ → ε → Option σ) (out : σ → ε → Option ω) : σ → List ε → List ω
  | _, [] => []
  | s, e :: es => (out s e).toList ++
      match step s e with
      | some s' => outputs step out s' es
      | none => []

theorem outputs_append {ω : Type*} {out : σ → ε → Option ω} {s t : σ} {es : List ε}
    (hrun : run step s es = some t) (fs : List ε) :
    outputs step out s (es ++ fs) = outputs step out s es ++ outputs step out t fs := by
  induction es generalizing s with
  | nil =>
      obtain rfl : s = t := run_nil_eq_some.mp hrun
      rfl
  | cons e es ih =>
      obtain ⟨s', hs', hrest⟩ := run_cons_eq_some.mp hrun
      simp only [List.cons_append, outputs, hs', ih hrest, List.append_assoc]

/-- An invariant that also speaks of the events so far and of what they have shown. -/
theorem run_shows {ω : Type*} {out : σ → ε → Option ω} {ok : σ → ε → Prop}
    (Inv : List ε → List ω → σ → Prop)
    (hstep : ∀ es shown s e s', Inv es shown s → ok s e → step s e = some s' →
      Inv (es ++ [e]) (shown ++ (out s e).toList) s')
    {s t : σ} {es : List ε} (hinit : Inv [] [] s) (hok : Along step ok s es)
    (hrun : run step s es = some t) : Inv es (outputs step out s es) t := by
  suffices hgen : ∀ (es : List ε) (before : List ε) (shown : List ω) (s : σ), Inv before shown s →
      Along step ok s es → run step s es = some t →
      Inv (before ++ es) (shown ++ outputs step out s es) t from hgen es [] [] s hinit hok hrun
  intro es
  induction es with
  | nil =>
      intro before shown s hinv _ hrun
      obtain rfl : s = t := run_nil_eq_some.mp hrun
      simpa [outputs] using hinv
  | cons e es ih =>
      intro before shown s hinv hok hrun
      obtain ⟨s', hs', hrest⟩ := run_cons_eq_some.mp hrun
      have hafter := ih _ _ s' (hstep before shown s e s' hinv hok.1 hs') (hok.tail hs') hrest
      simpa only [outputs, hs', List.append_assoc, List.singleton_append] using hafter

end Foundation.System

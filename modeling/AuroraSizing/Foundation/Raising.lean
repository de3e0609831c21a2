import Mathlib.Logic.Basic

/-!
# Code that calls out and may raise

`Ends x Q s` says what holds when `x` ends from `s`, whether it returns or raises; what was
written before an exception stays written. The rules take a body apart one statement at a time.
`call` makes a call that may raise, and keeps a record of the calls made.
-/

namespace Foundation.Raising

universe u

/-- Code over variables `σ` that may raise an `ε`. -/
abbrev Code (ε σ : Type u) (α : Type u) := EStateM ε σ α

variable {ε σ α β : Type u}

/-- How the code ends, and the variables then. -/
def execute (x : Code ε σ α) (s : σ) : Except ε α × σ :=
  match x s with
  | .ok a t => (.ok a, t)
  | .error e t => (.error e, t)

def Ends (x : Code ε σ α) (Q : Except ε α → σ → Prop) (s : σ) : Prop :=
  Q (execute x s).1 (execute x s).2

/-! ## The rules -/

variable {x : Code ε σ α} {Q Q' : Except ε α → σ → Prop} {s : σ}

theorem Ends.mono (h : Ends x Q s) (himp : ∀ r t, Q r t → Q' r t) : Ends x Q' s :=
  himp _ _ h

@[simp] theorem ends_pure {a : α} : Ends (pure a : Code ε σ α) Q s ↔ Q (.ok a) s := Iff.rfl

@[simp] theorem ends_throw {e : ε} : Ends (throw e : Code ε σ α) Q s ↔ Q (.error e) s := Iff.rfl

@[simp] theorem ends_get {Q : Except ε σ → σ → Prop} :
    Ends (get : Code ε σ σ) Q s ↔ Q (.ok s) s := Iff.rfl

@[simp] theorem ends_modify {f : σ → σ} {Q : Except ε PUnit → σ → Prop} :
    Ends (modify f : Code ε σ PUnit) Q s ↔ Q (.ok ⟨⟩) (f s) := Iff.rfl

/-- What holds after the first statement is what the second needs, or the end. -/
theorem ends_bind {f : α → Code ε σ β} {Q : Except ε β → σ → Prop} :
    Ends (x >>= f) Q s ↔
      Ends x (fun r t =>
        match r with
        | .ok a => Ends (f a) Q t
        | .error e => Q (.error e) t) s := by
  unfold Ends execute
  simp only [bind, EStateM.bind]
  cases x s with
  | ok a t => rfl
  | error e t => rfl

theorem ends_tryCatch {f : ε → Code ε σ α} :
    Ends (tryCatch x f) Q s ↔
      Ends x (fun r t =>
        match r with
        | .ok a => Q (.ok a) t
        | .error e => Ends (f e) Q t) s := by
  unfold Ends execute
  simp only [tryCatch, tryCatchThe, MonadExceptOf.tryCatch]
  delta EStateM.tryCatch
  dsimp only
  cases x s with
  | ok a t => rfl
  | error e t => rfl

/-- An exception of the block at the end takes the place of the first one. -/
theorem ends_tryFinally {y : Code ε σ β} :
    Ends (tryFinally x y) Q s ↔
      Ends x (fun r t => Ends y (fun r' t' =>
        match r' with
        | .ok _ => Q r t'
        | .error e => Q (.error e) t') t) s := by
  unfold Ends execute tryFinally
  simp only [Functor.map, EStateM.map, MonadFinally.tryFinally']
  cases x s with
  | ok a t =>
      cases hy : y t with
      | ok b t' => simp only [hy]
      | error e t' => simp only [hy]
  | error e t =>
      cases hy : y t with
      | ok b t' => simp only [hy]
      | error e' t' => simp only [hy]

/-- What the block at the end leaves behind, however the first one ended. -/
theorem Ends.tryFinally {y : Code ε σ β} {P : σ → Prop}
    (h : Ends x (fun _ t => Ends y (fun _ t' => P t') t) s) :
    Ends (tryFinally x y) (fun _ t => P t) s := by
  rw [ends_tryFinally]
  refine h.mono ?_
  intro r t ht
  refine ht.mono ?_
  intro r' t' ht'
  cases r' with
  | ok _ => exact ht'
  | error e => exact ht'

/-- The same of a handler. -/
theorem Ends.tryCatch {f : ε → Code ε σ α} {P : σ → Prop}
    (h : Ends x (fun r t =>
      match r with
      | .ok _ => P t
      | .error e => Ends (f e) (fun _ t' => P t') t) s) :
    Ends (tryCatch x f) (fun _ t => P t) s := by
  rw [ends_tryCatch]
  refine h.mono ?_
  intro r t ht
  cases r with
  | ok _ => exact ht
  | error e => exact ht

/-- A handler that keeps what the body leaves behind. -/
theorem ends_tryCatch_keeps {f : ε → Code ε σ α} {P : σ → Prop}
    (h : Ends x (fun _ t => P t) s)
    (hf : ∀ e t, P t → Ends (f e) (fun _ t' => P t') t) :
    Ends (tryCatch x f) (fun _ t => P t) s := by
  refine Ends.tryCatch (h.mono ?_)
  intro r t ht
  cases r with
  | ok _ => exact ht
  | error e => exact hf e t ht

/-! ## What a body leaves alone -/

/-- The variables before and after are related, however the code ends. -/
def Preserves (R : σ → σ → Prop) (x : Code ε σ α) : Prop := ∀ s, Ends x (fun _ t => R s t) s

theorem Preserves.bind {R : σ → σ → Prop} {f : α → Code ε σ β}
    (htrans : ∀ {s t t'}, R s t → R t t' → R s t') (hx : Preserves R x)
    (hf : ∀ a, Preserves R (f a)) : Preserves R (x >>= f) := by
  intro s
  rw [ends_bind]
  refine (hx s).mono ?_
  intro r t ht
  cases r with
  | ok a => exact (hf a t).mono fun _ _ ht' => htrans ht ht'
  | error e => exact ht

/-! ## Calls -/

/-- The calls made so far, and the variables. -/
structure Traced (κ σ : Type u) where
  calls : List κ
  locals : σ

variable {κ : Type u}

def call (raises : κ → Option ε) (c : κ) : Code ε (Traced κ σ) PUnit := fun s =>
  match raises c with
  | none => .ok ⟨⟩ { s with calls := s.calls ++ [c] }
  | some e => .error e { s with calls := s.calls ++ [c] }

def assign (f : σ → σ) : Code ε (Traced κ σ) PUnit :=
  modify fun s => { s with locals := f s.locals }

variable {raises : κ → Option ε} {c : κ} {Q : Except ε PUnit → Traced κ σ → Prop} {s : Traced κ σ}

theorem ends_call :
    Ends (call raises c) Q s ↔
      Q (match raises c with | none => .ok ⟨⟩ | some e => .error e)
        { s with calls := s.calls ++ [c] } := by
  unfold Ends execute call
  cases raises c with
  | none => rfl
  | some e => rfl

/-- A call goes on when it does not raise. -/
theorem ends_call_bind {f : PUnit → Code ε (Traced κ σ) β} {Q : Except ε β → Traced κ σ → Prop} :
    Ends (call raises c >>= f) Q s ↔
      (∀ e, raises c = some e → Q (.error e) { s with calls := s.calls ++ [c] }) ∧
        (raises c = none → Ends (f ⟨⟩) Q { s with calls := s.calls ++ [c] }) := by
  rw [ends_bind, ends_call]
  cases raises c with
  | none => simp
  | some e => simp

theorem ends_assign_bind {f : σ → σ} {g : PUnit → Code ε (Traced κ σ) β}
    {Q : Except ε β → Traced κ σ → Prop} :
    Ends (assign f >>= g) Q s ↔ Ends (g ⟨⟩) Q { s with locals := f s.locals } := Iff.rfl

@[simp] theorem ends_assign {f : σ → σ} :
    Ends (assign f : Code ε (Traced κ σ) PUnit) Q s ↔
      Q (.ok ⟨⟩) { s with locals := f s.locals } := Iff.rfl

end Foundation.Raising

import AuroraSizing.Foundation.System
import Mathlib.Algebra.BigOperators.Group.Finset.Basic
import Mathlib.Algebra.Order.Group.Multiset
import Mathlib.Logic.Function.Basic
import Mathlib.Tactic.Abel

/-!
# A pool of workers

A job is a list of items. A worker takes the oldest job of the queue, starts its items one after
another and is free again when it has none left, or when one of them raises. However the workers
take turns, `Accounts` says where every job and every item is.
-/

namespace Foundation.WorkPool

variable {ω α M : Type*}

/-- The items of a job, and those not started yet. -/
structure Job (α : Type*) where
  items : List α
  left : List α
deriving DecidableEq, Repr

structure Pool (ω α : Type*) where
  /-- All jobs, in the order they were submitted. -/
  submitted : List (List α)
  queue : List (List α)
  workers : ω → Option (Job α)
  started : List α
  finished : List (List α)
  /-- The jobs that an item ended. -/
  dropped : List (Job α)

inductive Move (ω α : Type*) where
  | submit (items : List α)
  | take (w : ω)
  /-- The next item of the worker's job. -/
  | start (w : ω)
  | finish (w : ω)
  | drop (w : ω)

/-- What a move adds to the jobs submitted. -/
def Move.submits : Move ω α → List (List α)
  | .submit items => [items]
  | .take _ | .start _ | .finish _ | .drop _ => []

/-- What a move costs, when an item has this price. -/
def Move.cost (price : ℕ) : Move ω α → ℕ
  | .start _ => price
  | .submit _ => 0
  | .take _ | .finish _ | .drop _ => 1

/-- What jobs are worth: a job in hand loses the worth of an item when the item is started, and
the rest when it is finished. -/
structure Worth (α M : Type*) [Add M] where
  job : Job α → M
  item : α → M
  finished : List α → M
  start : ∀ items a left, job ⟨items, a :: left⟩ = item a + job ⟨items, left⟩
  finish : ∀ items, job ⟨items, []⟩ = finished items

namespace Worth

/-- A job that nobody has taken yet. -/
def whole [Add M] (worth : Worth α M) (items : List α) : M := worth.job ⟨items, items⟩

/-- The items not started. -/
def items : Worth α (Multiset α) where
  job job := job.left
  item a := {a}
  finished _ := 0
  start items a left := by
    rw [← Multiset.cons_coe, ← Multiset.singleton_add]
  finish _ := rfl

/-- The jobs not finished. -/
def jobs : Worth α (Multiset (List α)) where
  job job := {job.items}
  item _ := 0
  finished items := {items}
  start _ _ _ := (zero_add _).symm
  finish _ := rfl

end Worth

namespace Pool

def idle : Pool ω α := ⟨[], [], fun _ => none, [], [], []⟩

/-- No job is queued or with a worker. -/
def Done (p : Pool ω α) : Prop := p.queue = [] ∧ ∀ w, p.workers w = none

/-- All items still to be started are of this kind. -/
structure All (P : α → Prop) (p : Pool ω α) : Prop where
  queue : ∀ items ∈ p.queue, ∀ a ∈ items, P a
  workers : ∀ w job, p.workers w = some job → ∀ a ∈ job.left, P a

theorem all_idle (P : α → Prop) : (idle : Pool ω α).All P where
  queue := fun _ h => nomatch h
  workers := fun _ _ h => nomatch h

section Moves

variable [DecidableEq ω]

def step (p : Pool ω α) : Move ω α → Option (Pool ω α)
  | .submit items =>
      some { p with submitted := p.submitted ++ [items], queue := p.queue ++ [items] }
  | .take w =>
      match p.workers w, p.queue with
      | none, items :: queue =>
          some { p with
            queue := queue
            workers := Function.update p.workers w (some ⟨items, items⟩) }
      | _, _ => none
  | .start w =>
      match p.workers w with
      | some ⟨items, a :: left⟩ =>
          some { p with
            workers := Function.update p.workers w (some ⟨items, left⟩)
            started := p.started ++ [a] }
      | _ => none
  | .finish w =>
      match p.workers w with
      | some ⟨items, []⟩ =>
          some { p with
            workers := Function.update p.workers w none
            finished := p.finished ++ [items] }
      | _ => none
  | .drop w =>
      match p.workers w with
      | some job =>
          some { p with
            workers := Function.update p.workers w none
            dropped := p.dropped ++ [job] }
      | none => none

/-! ## What a move can do -/

/-- The moves, with what they need. -/
inductive Moves (p : Pool ω α) : Move ω α → Pool ω α → Prop
  | submit (items : List α) :
      Moves p (.submit items)
        { p with submitted := p.submitted ++ [items], queue := p.queue ++ [items] }
  | take {w : ω} {items : List α} {queue : List (List α)} (free : p.workers w = none)
      (oldest : p.queue = items :: queue) :
      Moves p (.take w)
        { p with
          queue := queue
          workers := Function.update p.workers w (some ⟨items, items⟩) }
  | start {w : ω} {items left : List α} {a : α} (job : p.workers w = some ⟨items, a :: left⟩) :
      Moves p (.start w)
        { p with
          workers := Function.update p.workers w (some ⟨items, left⟩)
          started := p.started ++ [a] }
  | finish {w : ω} {items : List α} (job : p.workers w = some ⟨items, []⟩) :
      Moves p (.finish w)
        { p with
          workers := Function.update p.workers w none
          finished := p.finished ++ [items] }
  | drop {w : ω} {job : Job α} (running : p.workers w = some job) :
      Moves p (.drop w)
        { p with
          workers := Function.update p.workers w none
          dropped := p.dropped ++ [job] }

theorem step_eq_some_iff {p p' : Pool ω α} {m : Move ω α} :
    p.step m = some p' ↔ Moves p m p' := by
  constructor
  · intro h
    cases m with
    | submit items =>
        cases h
        exact .submit items
    | take w =>
        simp only [step] at h
        split at h
        case h_1 hfree holdest =>
          cases h
          exact .take hfree holdest
        case h_2 => cases h
    | start w =>
        simp only [step] at h
        split at h
        case h_1 hjob =>
          cases h
          exact .start hjob
        case h_2 => cases h
    | finish w =>
        simp only [step] at h
        split at h
        case h_1 hjob =>
          cases h
          exact .finish hjob
        case h_2 => cases h
    | drop w =>
        simp only [step] at h
        split at h
        case h_1 hrunning =>
          cases h
          exact .drop hrunning
        case h_2 => cases h
  · intro h
    cases h with
    | submit items => rfl
    | take hfree holdest => simp only [step, hfree, holdest]
    | start hjob => simp only [step, hjob]
    | finish hjob => simp only [step, hjob]
    | drop hrunning => simp only [step, hrunning]

theorem submitted_step {p p' : Pool ω α} {m : Move ω α} (h : p.step m = some p') :
    p'.submitted = p.submitted ++ m.submits := by
  cases step_eq_some_iff.mp h with
  | submit => rfl
  | take | start | finish | drop => exact (List.append_nil _).symm

/-- What a move adds to the jobs finished. -/
def finishes (p : Pool ω α) : Move ω α → List (List α)
  | .finish w => (p.workers w).elim [] fun job => [job.items]
  | .submit _ | .take _ | .start _ | .drop _ => []

theorem finished_step {p p' : Pool ω α} {m : Move ω α} (h : p.step m = some p') :
    p'.finished = p.finished ++ p.finishes m := by
  cases step_eq_some_iff.mp h with
  | submit | take | start | drop => exact (List.append_nil _).symm
  | finish hjob => rw [finishes, hjob, Option.elim_some]

/-- What a move adds to the jobs dropped. -/
def drops (p : Pool ω α) : Move ω α → List (Job α)
  | .drop w => (p.workers w).toList
  | .submit _ | .take _ | .start _ | .finish _ => []

theorem dropped_step {p p' : Pool ω α} {m : Move ω α} (h : p.step m = some p') :
    p'.dropped = p.dropped ++ p.drops m := by
  cases step_eq_some_iff.mp h with
  | submit | take | start | finish => exact (List.append_nil _).symm
  | drop hrunning => rw [drops, hrunning, Option.toList_some]

/-! ## What the items are -/

theorem All.update {P : α → Prop} {p : Pool ω α} (h : p.All P) {w : ω} {o : Option (Job α)}
    (ho : ∀ job, o = some job → ∀ a ∈ job.left, P a) :
    ∀ v job, Function.update p.workers w o v = some job → ∀ a ∈ job.left, P a := by
  intro v job hjob
  by_cases hv : v = w
  · subst hv
    rw [Function.update_self] at hjob
    exact ho job hjob
  · rw [Function.update_of_ne hv] at hjob
    exact h.workers v job hjob

theorem All.step {P : α → Prop} {p p' : Pool ω α} {m : Move ω α} (h : p.All P)
    (hsubmits : ∀ items ∈ m.submits, ∀ a ∈ items, P a) (hstep : p.step m = some p') :
    p'.All P := by
  cases step_eq_some_iff.mp hstep with
  | submit items =>
      refine ⟨?_, h.workers⟩
      intro items' hitems'
      rcases List.mem_append.mp hitems' with hold | hnew
      · exact h.queue items' hold
      · exact hsubmits items' hnew
  | @take w items queue hfree holdest =>
      have hqueue := h.queue
      rw [holdest] at hqueue
      refine ⟨fun items' hitems' => hqueue items' (List.mem_cons_of_mem _ hitems'), ?_⟩
      apply h.update
      intro job hjob
      cases hjob
      exact hqueue items (List.mem_cons_self ..)
  | @start w items left a hjob =>
      refine ⟨h.queue, h.update ?_⟩
      intro job hjob' b hb
      cases hjob'
      exact h.workers w _ hjob b (List.mem_cons_of_mem a hb)
  | finish | drop => exact ⟨h.queue, h.update fun _ hnone => nomatch hnone⟩

end Moves

/-! ## Where everything is -/

section InHand

variable [Fintype ω] [AddCommMonoid M]

/-- What the workers have in hand, taken together. -/
def inHand (f : Job α → M) (workers : ω → Option (Job α)) : M :=
  ∑ w, (workers w).elim 0 f

theorem inHand_of_done {f : Job α → M} {p : Pool ω α} (h : p.Done) : inHand f p.workers = 0 := by
  rw [inHand]
  refine Finset.sum_eq_zero fun w _ => ?_
  rw [h.2 w]
  rfl

/-- Two sums that differ in one summand. -/
theorem sum_add_eq_of_ne [DecidableEq ω] {f g : ω → M} {w : ω} (h : ∀ v, v ≠ w → f v = g v) :
    ∑ v, f v + g w = ∑ v, g v + f w := by
  have hrest : ∑ v ∈ Finset.univ.erase w, f v = ∑ v ∈ Finset.univ.erase w, g v :=
    Finset.sum_congr rfl fun v hv => h v (Finset.ne_of_mem_erase hv)
  rw [← Finset.add_sum_erase Finset.univ f (Finset.mem_univ w),
    ← Finset.add_sum_erase Finset.univ g (Finset.mem_univ w), hrest]
  abel

theorem inHand_update [DecidableEq ω] (f : Job α → M) (workers : ω → Option (Job α)) (w : ω)
    (o : Option (Job α)) :
    inHand f (Function.update workers w o) + (workers w).elim 0 f =
      inHand f workers + o.elim 0 f := by
  have hsum := sum_add_eq_of_ne (f := fun v => (Function.update workers w o v).elim 0 f)
    (g := fun v => (workers v).elim 0 f) (w := w) fun v hv => by rw [Function.update_of_ne hv]
  rwa [Function.update_self] at hsum

end InHand

variable [Fintype ω] [AddCancelCommMonoid M] {worth : Worth α M} {p p' : Pool ω α} {m : Move ω α}

/-- The worth of all jobs submitted is that of the items started and of the jobs finished, and
what the jobs with the workers, in the queue and dropped are still worth. -/
def Accounts (worth : Worth α M) (p : Pool ω α) : Prop :=
  (p.started.map worth.item).sum + (p.finished.map worth.finished).sum +
    inHand worth.job p.workers + (p.queue.map worth.whole).sum + (p.dropped.map worth.job).sum =
      (p.submitted.map worth.whole).sum

theorem accounts_idle (worth : Worth α M) : (idle : Pool ω α).Accounts worth := by
  simp [Accounts, idle, inHand]

theorem Accounts.step [DecidableEq ω] (h : p.Accounts worth) (hstep : p.step m = some p') :
    p'.Accounts worth := by
  unfold Accounts at h ⊢
  cases step_eq_some_iff.mp hstep with
  | submit items =>
      simp only [List.map_append, List.map_singleton, List.sum_append, List.sum_singleton]
      rw [← h]
      abel
  | @take w items queue hfree holdest =>
      have hupdate := inHand_update worth.job p.workers w (some ⟨items, items⟩)
      rw [hfree] at hupdate
      simp only [Option.elim_none, Option.elim_some, add_zero] at hupdate
      rw [holdest, List.map_cons, List.sum_cons, Worth.whole] at h
      rw [hupdate, ← h]
      abel
  | @start w items left a hjob =>
      have hupdate := inHand_update worth.job p.workers w (some ⟨items, left⟩)
      rw [hjob] at hupdate
      simp only [Option.elim_some, worth.start, ← add_assoc] at hupdate
      simp only [List.map_append, List.map_singleton, List.sum_append, List.sum_singleton]
      rw [← h, ← add_right_cancel hupdate]
      abel
  | @finish w items hjob =>
      have hupdate := inHand_update worth.job p.workers w none
      rw [hjob] at hupdate
      simp only [Option.elim_none, Option.elim_some, worth.finish, add_zero] at hupdate
      simp only [List.map_append, List.map_singleton, List.sum_append, List.sum_singleton]
      rw [← h, ← hupdate]
      abel
  | @drop w job hrunning =>
      have hupdate := inHand_update worth.job p.workers w none
      rw [hrunning] at hupdate
      simp only [Option.elim_none, Option.elim_some, add_zero] at hupdate
      simp only [List.map_append, List.map_singleton, List.sum_append, List.sum_singleton]
      rw [← h, ← hupdate]
      abel

theorem sum_map_singletons (l : List α) : (l.map fun a => ({a} : Multiset α)).sum = l := by
  have h := Multiset.sum_map_singleton (l : Multiset α)
  rwa [Multiset.map_coe, Multiset.sum_coe] at h

theorem Accounts.submitted_of_finished (h : p.Accounts Worth.jobs) {items : List α}
    (hitems : items ∈ p.finished) : items ∈ p.submitted := by
  unfold Accounts at h
  have hfinished : (p.finished.map (Worth.jobs (α := α)).finished).sum =
      (p.finished : Multiset (List α)) := sum_map_singletons p.finished
  have hsubmitted : (p.submitted.map (Worth.jobs (α := α)).whole).sum =
      (p.submitted : Multiset (List α)) := sum_map_singletons p.submitted
  rw [hfinished, hsubmitted] at h
  rw [← Multiset.mem_coe, ← h]
  simp [hitems]

/-! ## When the pool is done -/

theorem Accounts.of_done (h : p.Accounts worth) (hdone : p.Done) (hdropped : p.dropped = []) :
    (p.started.map worth.item).sum + (p.finished.map worth.finished).sum =
      (p.submitted.map worth.whole).sum := by
  unfold Accounts at h
  rw [inHand_of_done hdone, hdone.1, hdropped] at h
  simpa using h

theorem sum_map_coe (l : List (List α)) :
    (l.map ((↑) : List α → Multiset α)).sum = (l.flatten : Multiset α) := by
  rw [← Multiset.sum_coe]
  exact Multiset.coe_join l

/-- If no job was dropped, every item of every job was started once. -/
theorem started_perm (h : p.Accounts Worth.items) (hdone : p.Done) (hdropped : p.dropped = []) :
    p.started.Perm p.submitted.flatten := by
  have htotal := h.of_done hdone hdropped
  have hfinished : (p.finished.map (Worth.items (α := α)).finished).sum = 0 :=
    List.sum_eq_zero fun x hx => by
      obtain ⟨_, -, rfl⟩ := List.mem_map.mp hx
      rfl
  have hstarted : (p.started.map (Worth.items (α := α)).item).sum = (p.started : Multiset α) :=
    sum_map_singletons p.started
  have hsubmitted : (p.submitted.map (Worth.items (α := α)).whole).sum =
      (p.submitted.flatten : Multiset α) := sum_map_coe p.submitted
  rw [hstarted, hfinished, hsubmitted, add_zero] at htotal
  exact Multiset.coe_eq_coe.mp htotal

theorem finished_perm (h : p.Accounts Worth.jobs) (hdone : p.Done) (hdropped : p.dropped = []) :
    p.finished.Perm p.submitted := by
  have htotal := h.of_done hdone hdropped
  have hstarted : (p.started.map (Worth.jobs (α := α)).item).sum = 0 :=
    List.sum_eq_zero fun x hx => by
      obtain ⟨_, -, rfl⟩ := List.mem_map.mp hx
      rfl
  have hfinished : (p.finished.map (Worth.jobs (α := α)).finished).sum =
      (p.finished : Multiset (List α)) := sum_map_singletons p.finished
  have hsubmitted : (p.submitted.map (Worth.jobs (α := α)).whole).sum =
      (p.submitted : Multiset (List α)) := sum_map_singletons p.submitted
  rw [hstarted, hfinished, hsubmitted, zero_add] at htotal
  exact Multiset.coe_eq_coe.mp htotal

/-! ## How much there is to do -/

/-- What the workers and the queue have still to do: an item costs its price, and a move 1. -/
def load (price : ℕ) (p : Pool ω α) : ℕ :=
  inHand (fun job => price * job.left.length + 1) p.workers +
    (p.queue.map fun items => price * items.length + 2).sum

theorem load_step [DecidableEq ω] (price : ℕ) (h : p.step m = some p') :
    p'.load price + m.cost price ≤
      p.load price + (m.submits.map fun items => price * items.length + 2).sum := by
  unfold load Move.cost Move.submits
  cases step_eq_some_iff.mp h with
  | submit items =>
      simp only [List.map_append, List.sum_append]
      omega
  | @take w items queue hfree holdest =>
      have hupdate := inHand_update (fun job : Job α => price * job.left.length + 1) p.workers w
        (some ⟨items, items⟩)
      rw [hfree] at hupdate
      simp only [Option.elim_none, Option.elim_some] at hupdate
      simp only [holdest, List.map_cons, List.sum_cons]
      omega
  | @start w items left a hjob =>
      have hupdate := inHand_update (fun job : Job α => price * job.left.length + 1) p.workers w
        (some ⟨items, left⟩)
      rw [hjob] at hupdate
      simp only [Option.elim_some, List.length_cons, Nat.mul_succ] at hupdate
      dsimp only
      omega
  | @finish w items hjob =>
      have hupdate := inHand_update (fun job : Job α => price * job.left.length + 1) p.workers w
        none
      rw [hjob] at hupdate
      simp only [Option.elim_none, Option.elim_some] at hupdate
      dsimp only
      omega
  | @drop w job hrunning =>
      have hupdate := inHand_update (fun job : Job α => price * job.left.length + 1) p.workers w
        none
      rw [hrunning] at hupdate
      simp only [Option.elim_none, Option.elim_some] at hupdate
      dsimp only
      omega

end Pool

end Foundation.WorkPool

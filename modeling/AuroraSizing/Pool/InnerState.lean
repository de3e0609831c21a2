import AuroraSizing.Pool.Conservation

/-!
# `assertInnerState`

A connection goes into the queue before it is taken out of the counter, and is out of
the queue before it is counted. So the counter and the queue together say too much by
the returns that are between their two statements, and too little by the borrows and
the check that are. `activeConnections_add` says exactly by how much; the pool's check
then compares the one kind of lag with the other.
-/

namespace AuroraSizing.Pool

open Foundation.System

/-- The checker's part of `activeConnections`. -/
def Checker.active : Checker → ℕ
  | .counted _ | .returned | .dead => 1
  | .idle | .waiting | .took _ => 0

/-- A connection is put back, or one that is out is counted. -/
def Event.crowds : Event → Bool
  | .close _ | .deliver _ | .checkReturn | .checkCount => true
  | .getConnection | .take | .timeout _ | .decrement | .call _ | .checkWait | .checkTake
  | .checkDone | .checkFail | .poolClose | .poolDrain => false

namespace SimpleDataSource2

/-- Connections that are in the queue again and still counted. -/
def uncountedReturns (p : SimpleDataSource2) : ℕ :=
  p.closing +
    match p.checker with
    | .returned => 1
    | .idle | .waiting | .took _ | .counted _ | .dead => 0

/-- Connections that have left the queue and are not counted yet. -/
def uncountedTakes (p : SimpleDataSource2) : ℕ :=
  p.taking.length +
    match p.checker with
    | .took _ => 1
    | .idle | .waiting | .counted _ | .returned | .dead => 0

/-- `InService`, and every connection valid. -/
def AllValid (p : SimpleDataSource2) (e : Event) : Prop :=
  p.InService e ∧ e ≠ .checkFail

instance (p : SimpleDataSource2) (e : Event) : Decidable (p.AllValid e) :=
  inferInstanceAs (Decidable (p.InService e ∧ e ≠ .checkFail))

/-- A connection is put back or counted only while fewer connections are back and still
counted than are out and not counted, or were never opened or lost. -/
def Uncrowded (maximumPoolSize : ℕ) (p : SimpleDataSource2) (e : Event) : Prop :=
  e.crowds = true → p.uncountedReturns < p.uncountedTakes + (maximumPoolSize - p.held)

instance (maximumPoolSize : ℕ) (p : SimpleDataSource2) (e : Event) :
    Decidable (p.Uncrowded maximumPoolSize e) :=
  inferInstanceAs (Decidable (e.crowds = true →
    p.uncountedReturns < p.uncountedTakes + (maximumPoolSize - p.held)))

/-- What the counter counts, and that all the connections fit. -/
structure Counted (capacity maximumPoolSize : ℕ) (p : SimpleDataSource2) : Prop where
  activeConnections_eq : p.activeConnections = p.borrowed.length + p.closing + p.checker.active
  alive : p.checker ≠ .dead
  held_le : p.held ≤ maximumPoolSize
  fits : maximumPoolSize ≤ capacity

theorem counted_create {capacity maximumPoolSize n : ℕ} (hn : n ≤ maximumPoolSize)
    (hfits : maximumPoolSize ≤ capacity) : Counted capacity maximumPoolSize (create n) where
  activeConnections_eq := rfl
  alive := Checker.noConfusion
  held_le := by rwa [held_create]
  fits := hfits

section Steps

variable {capacity maximumPoolSize : ℕ} {p p' : SimpleDataSource2} {e : Event}

/-- The queue has room for a connection that is out. -/
theorem Counted.closeHandler_eq (hp : Counted capacity maximumPoolSize p) {l : Lease}
    (hmem : l ∈ p.borrowed) (closed : List Lease) :
    closeHandler capacity { p with borrowed := p.borrowed.erase l, closed := closed } l.conn =
      { p with
        borrowed := p.borrowed.erase l
        closed := closed
        recycledConnections := p.recycledConnections ++ [l.conn]
        closing := p.closing + 1 } := by
  have hheld := hp.held_le
  have hfits := hp.fits
  have hlength := List.length_pos_of_mem hmem
  have hroom : p.recycledConnections.length < capacity := by
    rw [held] at hheld
    omega
  unfold closeHandler add
  rw [if_pos hroom]

/-- So has it for the checker's. -/
theorem Counted.room_of_checker (hp : Counted capacity maximumPoolSize p) {c : Conn}
    (hchecker : p.checker = .counted c) : p.recycledConnections.length < capacity := by
  have hheld := hp.held_le
  have hfits := hp.fits
  simp only [held, hchecker, Checker.conns, List.length_cons, List.length_nil] at hheld
  omega

theorem activeConnections_step (hp : Counted capacity maximumPoolSize p) (hok : p.AllValid e)
    (h : p.step capacity e = some p') :
    p'.activeConnections = p'.borrowed.length + p'.closing + p'.checker.active := by
  have hactive := hp.activeConnections_eq
  rcases hok with ⟨⟨hbehaved, _, hdrain⟩, hvalid⟩
  cases moves_of_step h with
  | getConnection | take | timeout | call | poolClose => exact hactive
  | deliver =>
      simp only [List.length_append, List.length_singleton]
      omega
  | @close l hhas =>
      have hmem : l ∈ p.borrowed := hhas.resolve_right hbehaved
      have hlength := List.length_erase_add_one hmem
      simp only [hp.closeHandler_eq hmem]
      omega
  | decrement hclosing =>
      simp only
      omega
  | checkWait _ hchecker | checkTake hchecker | checkReturn hchecker =>
      rw [hchecker] at hactive
      exact hactive
  | checkCount hchecker | checkDone hchecker =>
      simp only [hchecker, Checker.active] at hactive ⊢
      omega
  | checkFull hchecker hfull =>
      exact absurd (hp.room_of_checker hchecker) (Nat.not_lt.mpr hfull)
  | checkFail => exact absurd rfl hvalid
  | poolDrain => exact absurd rfl hdrain

theorem alive_step (hp : Counted capacity maximumPoolSize p) (hok : p.AllValid e)
    (h : p.step capacity e = some p') : p'.checker ≠ .dead := by
  rcases hok with ⟨⟨hbehaved, _, _⟩, hvalid⟩
  cases moves_of_step h with
  | getConnection | take | timeout | deliver | decrement | call | poolClose | poolDrain =>
      exact hp.alive
  | @close l hhas =>
      rw [hp.closeHandler_eq (hhas.resolve_right hbehaved)]
      exact hp.alive
  | checkWait | checkTake | checkCount | checkReturn | checkDone => exact Checker.noConfusion
  | checkFull hchecker hfull =>
      exact absurd (hp.room_of_checker hchecker) (Nat.not_lt.mpr hfull)
  | checkFail => exact absurd rfl hvalid

theorem counted_step (hp : Counted capacity maximumPoolSize p) (hok : p.AllValid e)
    (h : p.step capacity e = some p') : Counted capacity maximumPoolSize p' where
  activeConnections_eq := activeConnections_step hp hok h
  alive := alive_step hp hok h
  held_le := by
    have hheld := held_step (Nat.le_trans hp.held_le hp.fits) hok.1 h
    have hle := hp.held_le
    omega
  fits := hp.fits

/-- The counter and the queue, corrected by both lags, make up the pool. -/
theorem Counted.activeConnections_add (hp : Counted capacity maximumPoolSize p) :
    p.activeConnections + p.recycledConnections.length + p.uncountedTakes +
        ((maximumPoolSize - p.held : ℕ) : ℤ) = maximumPoolSize + p.uncountedReturns := by
  have hactive := hp.activeConnections_eq
  have hle := hp.held_le
  unfold held at hle
  unfold uncountedReturns uncountedTakes held
  cases hchecker : p.checker with
  | idle | waiting | took | counted | returned =>
      simp only [hchecker, Checker.active, Checker.conns, List.length_cons,
        List.length_nil] at hactive hle ⊢
      omega
  | dead => exact absurd hchecker hp.alive

/-- What the counter and the queue say together goes up by one, or does not go up. -/
theorem sum_step (hp : Counted capacity maximumPoolSize p) (hok : p.AllValid e)
    (h : p.step capacity e = some p') :
    if e.crowds = true then
      p'.activeConnections + p'.recycledConnections.length =
        p.activeConnections + p.recycledConnections.length + 1
    else
      p'.activeConnections + p'.recycledConnections.length ≤
        p.activeConnections + p.recycledConnections.length := by
  rcases hok with ⟨⟨hbehaved, _, hdrain⟩, hvalid⟩
  cases moves_of_step h with
  | getConnection | timeout | call | checkWait | poolClose => exact Int.le_refl _
  | take _ hqueue | checkTake _ hqueue =>
      simp only [Event.crowds, hqueue, List.length_cons, Bool.false_eq_true, if_false]
      omega
  | deliver | checkCount =>
      simp only [Event.crowds, if_true]
      omega
  | @close l hhas =>
      simp only [Event.crowds, if_true, hp.closeHandler_eq (hhas.resolve_right hbehaved),
        List.length_append, List.length_singleton]
      omega
  | decrement | checkDone =>
      simp only [Event.crowds, Bool.false_eq_true, if_false]
      omega
  | checkReturn =>
      simp only [Event.crowds, if_true, List.length_append, List.length_singleton]
      omega
  | checkFull hchecker hfull =>
      exact absurd (hp.room_of_checker hchecker) (Nat.not_lt.mpr hfull)
  | checkFail => exact absurd rfl hvalid
  | poolDrain => exact absurd rfl hdrain

/-- **One step keeps the check exactly when it is not crowded.** -/
theorem assertInnerState_step (hp : Counted capacity maximumPoolSize p) (hok : p.AllValid e)
    (hassert : p.assertInnerState maximumPoolSize = true) (h : p.step capacity e = some p') :
    p'.assertInnerState maximumPoolSize = true ↔ p.Uncrowded maximumPoolSize e := by
  have hsum := sum_step hp hok h
  have hadd := hp.activeConnections_add
  have hactive' := (counted_step hp hok h).activeConnections_eq
  rw [assertInnerState, decide_eq_true_eq] at hassert ⊢
  unfold Uncrowded
  cases hcrowds : e.crowds with
  | true =>
      rw [hcrowds, if_pos rfl] at hsum
      rw [imp_iff_right rfl]
      omega
  | false =>
      rw [hcrowds, if_neg Bool.false_ne_true] at hsum
      refine iff_of_true ?_ (fun htrue => absurd htrue Bool.false_ne_true)
      omega

end Steps

theorem assertInnerState_create {maximumPoolSize n : ℕ} (hn : n ≤ maximumPoolSize) :
    (create n).assertInnerState maximumPoolSize = true := by
  simp [assertInnerState, create, hn]

/-- **The check holds in every state of a run exactly when** every connection that is put
back or counted finds fewer returns behind their counter than borrows and checks. -/
theorem assertInnerState_iff_uncrowded {capacity maximumPoolSize n : ℕ} {es : List Event}
    {p : SimpleDataSource2} (hn : n ≤ maximumPoolSize) (hfits : maximumPoolSize ≤ capacity)
    (hok : Along (step capacity) AllValid (create n) es)
    (hrun : run (step capacity) (create n) es = some p) :
    (∀ es', es' <+: es → ∀ q, run (step capacity) (create n) es' = some q →
      q.assertInnerState maximumPoolSize = true) ↔
      Along (step capacity) (Uncrowded maximumPoolSize) (create n) es :=
  along_iff_forall_prefix (Counted capacity maximumPoolSize)
    (fun _ _ _ hp hok h => counted_step hp hok h)
    (fun _ _ _ hp hok hassert h => assertInnerState_step hp hok hassert h)
    (counted_create hn hfits) (assertInnerState_create hn) hok hrun

/-- A connection comes back while another is out and not counted yet. -/
def returnDuringTake : List Event :=
  [.getConnection, .take, .deliver 0, .getConnection, .take, .close ⟨0, 0⟩, .decrement,
   .deliver 1]

theorem assertInnerState_returnDuringTake :
    ∃ p, run (step 2) (create 2) returnDuringTake = some p ∧
      p.recycledConnections = [0] ∧ p.borrowed = [⟨1, 1⟩] ∧
      ∀ es', es' <+: returnDuringTake → ∀ q, run (step 2) (create 2) es' = some q →
        q.assertInnerState 2 = true := by
  have hok : Along (step 2) AllValid (create 2) returnDuringTake := by decide
  have hrun : run (step 2) (create 2) returnDuringTake = some _ := rfl
  have hcond : Along (step 2) (Uncrowded 2) (create 2) returnDuringTake := by decide
  exact ⟨_, hrun, rfl, rfl,
    (assertInnerState_iff_uncrowded (by decide) (by decide) hok hrun).mpr hcond⟩

/-- The only connection is back in the queue and still counted. -/
theorem assertInnerState_fails_in_close :
    Along (step 1) AllValid (create 1) [.getConnection, .take, .deliver 0, .close ⟨0, 0⟩] ∧
      ∃ p, run (step 1) (create 1) [.getConnection, .take, .deliver 0, .close ⟨0, 0⟩] = some p ∧
        p.assertInnerState 1 = false :=
  ⟨by decide, _, rfl, rfl⟩

end SimpleDataSource2

end AuroraSizing.Pool

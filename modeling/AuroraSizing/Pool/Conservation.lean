import AuroraSizing.Pool.Ownership

/-!
# How many connections are left

`held` counts the connections the pool can still account for: idle, in the hands of
a `getConnection` or of the checker, or borrowed. Every event keeps the count but
two. A `getConnection` that took a connection and then finds its time over throws
without giving it back, and a validity check that does not find its connection
valid ends in an exception with the connection in hand. What is missing at rest is
exactly the number of these events.
-/

namespace AuroraSizing.Pool

open Foundation.System

/-- The two events after which a connection is in nobody's hands. -/
def Event.loses : Event → Bool
  | .timeout _ | .checkFail => true
  | .getConnection | .take | .deliver _ | .close _ | .decrement | .call _ | .checkWait
  | .checkTake | .checkCount | .checkReturn | .checkDone | .poolClose | .poolDrain => false

namespace SimpleDataSource2

def held (p : SimpleDataSource2) : ℕ :=
  p.recycledConnections.length + p.taking.length + p.checker.conns.length + p.borrowed.length

/-- Borrow attempts, single returns, other calls and validity checks; the pool itself is
not closed. -/
def InService (p : SimpleDataSource2) (e : Event) : Prop :=
  p.WellBehaved e ∧ e ≠ .poolClose ∧ e ≠ .poolDrain

instance (p : SimpleDataSource2) (e : Event) : Decidable (p.InService e) :=
  inferInstanceAs (Decidable (p.WellBehaved e ∧ e ≠ .poolClose ∧ e ≠ .poolDrain))

/-- No operation has a connection in its hands: so it is whenever none is in progress. -/
structure AtRest (p : SimpleDataSource2) : Prop where
  taking : p.taking = []
  checker : p.checker.conns = []

theorem AtRest.held {p : SimpleDataSource2} (h : p.AtRest) :
    p.held = p.recycledConnections.length + p.borrowed.length := by
  rw [SimpleDataSource2.held, h.taking, h.checker]
  rfl

theorem held_closeHandler {capacity : ℕ} {p : SimpleDataSource2} (c : Conn)
    (hroom : p.recycledConnections.length < capacity) :
    (closeHandler capacity p c).held = p.held + 1 := by
  unfold closeHandler add
  rw [if_pos hroom]
  simp only [held, List.length_append, List.length_singleton]
  omega

/-- One event gives up a connection exactly when it is one of the two. -/
theorem held_step {capacity : ℕ} {p p' : SimpleDataSource2} {e : Event}
    (hfits : p.held ≤ capacity) (hok : p.InService e) (h : p.step capacity e = some p') :
    p'.held + [e].countP Event.loses = p.held := by
  rcases hok with ⟨hbehaved, hclose, hdrain⟩
  cases moves_of_step h with
  | getConnection => rfl
  | take _ hqueue =>
      simp only [held, hqueue, List.length_append, List.length_cons, List.length_nil]
      show _ + 0 = _
      omega
  | timeout htaken =>
      have hlength := List.length_erase_add_one htaken
      simp only [held]
      show _ + 1 = _
      omega
  | deliver htaken =>
      have hlength := List.length_erase_add_one htaken
      simp only [held, List.length_append, List.length_singleton]
      show _ + 0 = _
      omega
  | @close l hhas =>
      have hmem : l ∈ p.borrowed := hhas.resolve_right hbehaved
      have hlength := List.length_erase_add_one hmem
      -- the lease that ends leaves room in the queue
      have hroom : p.recycledConnections.length < capacity := by
        rw [held] at hfits
        omega
      have hadd := held_closeHandler
        (p := { p with
          borrowed := p.borrowed.erase l
          closed := if l ∈ p.closed then p.closed else p.closed ++ [l] }) l.conn hroom
      rw [hadd]
      simp only [held]
      show _ + 0 = _
      omega
  | decrement => rfl
  | call => rfl
  | checkWait _ hchecker =>
      simp only [held, hchecker]
      rfl
  | checkTake hchecker hqueue =>
      simp only [held, hchecker, hqueue, Checker.conns, List.length_cons, List.length_nil]
      show _ + 0 = _
      omega
  | checkCount hchecker =>
      simp only [held, hchecker]
      rfl
  | checkReturn hchecker =>
      simp only [held, hchecker, Checker.conns, List.length_append, List.length_cons,
        List.length_nil]
      show _ + 0 = _
      omega
  | checkFull hchecker hfull =>
      -- the checker holds one connection of those that fit, so the queue is not full
      exfalso
      simp only [held, hchecker, Checker.conns, List.length_cons, List.length_nil] at hfits
      omega
  | checkDone hchecker =>
      simp only [held, hchecker]
      rfl
  | checkFail hchecker =>
      simp only [held, hchecker, Checker.conns, List.length_cons, List.length_nil]
      show _ + 1 = _
      omega
  | poolClose => exact absurd rfl hclose
  | poolDrain => exact absurd rfl hdrain

/-- The run lemma: what is held and what was lost make up what there was. -/
theorem held_run {capacity : ℕ} {p p' : SimpleDataSource2} {es : List Event}
    (hfits : p.held ≤ capacity) (hok : Along (step capacity) InService p es)
    (hrun : run (step capacity) p es = some p') :
    p'.held + es.countP Event.loses = p.held := by
  induction es generalizing p with
  | nil =>
      obtain rfl : p = p' := run_nil_eq_some.mp hrun
      rfl
  | cons e es ih =>
      obtain ⟨q, hq, hrest⟩ := run_cons_eq_some.mp hrun
      have hstep := held_step hfits hok.1 hq
      have hafter := ih (by omega) (hok.tail hq) hrest
      rw [← List.singleton_append, List.countP_append]
      omega

theorem held_create (n : ℕ) : (create n).held = n := by
  simp [held, create, Checker.conns]

/-- **At rest the pool has all its connections exactly when** no `getConnection` timed
out with a connection in its hands and no validity check failed. The queue has room
for what the constructor opened. -/
theorem conserved_iff {capacity n : ℕ} {es : List Event} {p : SimpleDataSource2}
    (hcapacity : n ≤ capacity) (hok : Along (step capacity) InService (create n) es)
    (hrun : run (step capacity) (create n) es = some p) (hrest : p.AtRest) :
    p.recycledConnections.length + p.borrowed.length = n ↔ ∀ e ∈ es, e.loses = false := by
  have hheld := held_run (by rwa [held_create]) hok hrun
  rw [hrest.held, held_create] at hheld
  have hnone : es.countP Event.loses = 0 ↔ ∀ e ∈ es, e.loses = false := by
    simp [List.countP_eq_zero]
  rw [← hnone]
  constructor
  · intro hall
    omega
  · intro hzero
    omega

/-- Two borrows and a validity check beside them; one connection is still borrowed. -/
def borrowAndCheck : List Event :=
  [.getConnection, .take, .deliver 0, .checkWait, .checkTake, .checkCount, .getConnection,
   .take, .deliver 2, .checkReturn, .checkDone, .close ⟨0, 0⟩, .decrement]

theorem conserved_borrowAndCheck :
    ∃ p, run (step 4) (create 3) borrowAndCheck = some p ∧ p.borrowed = [⟨1, 2⟩] ∧
      p.recycledConnections.length + p.borrowed.length = 3 := by
  have hok : Along (step 4) InService (create 3) borrowAndCheck := by decide
  have hrun : run (step 4) (create 3) borrowAndCheck = some _ := rfl
  exact ⟨_, hrun, rfl, (conserved_iff (by decide) hok hrun ⟨rfl, rfl⟩).mpr (by decide)⟩

/-! ## A timeout -/

/-- A borrower waits for the only connection until its time is over, and then gets
it. -/
def lateTake : List Event :=
  [.getConnection, .take, .deliver 0, .getConnection, .close ⟨0, 0⟩, .decrement, .take,
   .timeout 0]

/-- The connection is gone: the pool of one is empty and nobody has borrowed it. -/
theorem timeout_loses_connection :
    Along (step 1) InService (create 1) lateTake ∧
      ∃ p, run (step 1) (create 1) lateTake = some p ∧ p.AtRest ∧ p.waiting = 0 ∧
        p.closing = 0 ∧ p.checker = .idle ∧
        ¬ p.recycledConnections.length + p.borrowed.length = 1 := by
  have hok : Along (step 1) InService (create 1) lateTake := by decide
  have hrun : run (step 1) (create 1) lateTake = some _ := rfl
  exact ⟨hok, _, hrun, ⟨rfl, rfl⟩, rfl, rfl, rfl, by decide⟩

end SimpleDataSource2

end AuroraSizing.Pool

import AuroraSizing.Pool.SimpleDataSource2
import Mathlib.Data.List.Nodup

/-!
# Who owns a connection

`uses` counts the places a connection is in: the queue, the hands of a
`getConnection`, those of the checker, and the open leases. No event of a
well-behaved borrower raises it, so no connection is ever in two places. A
second `close` does raise it.
-/

namespace AuroraSizing.Pool

open Foundation.System

/-- What the checker holds. -/
def Checker.conns : Checker → List Conn
  | .took c | .counted c => [c]
  | .idle | .waiting | .returned | .dead => []

namespace SimpleDataSource2

/-- In how many places the connection is. -/
def uses (p : SimpleDataSource2) (c : Conn) : ℕ :=
  p.recycledConnections.count c + p.taking.count c + p.checker.conns.count c +
    (p.borrowed.map Lease.conn).count c

/-- A borrower that has closed its proxy leaves it alone. -/
def WellBehaved (p : SimpleDataSource2) : Event → Prop
  | .close l | .call l => l ∉ p.closed
  | _ => True

instance (p : SimpleDataSource2) (e : Event) : Decidable (p.WellBehaved e) :=
  match e with
  | .close l | .call l => inferInstanceAs (Decidable (l ∉ p.closed))
  | .getConnection | .take | .timeout _ | .deliver _ | .decrement | .checkWait | .checkTake
  | .checkCount | .checkReturn | .checkDone | .checkFail | .poolClose | .poolDrain =>
      inferInstanceAs (Decidable True)

theorem uses_closeHandler_le (capacity : ℕ) (p : SimpleDataSource2) (c d : Conn) :
    (closeHandler capacity p c).uses d ≤ p.uses d + [c].count d := by
  unfold closeHandler add
  split
  · rename_i hadd
    split at hadd
    · cases hadd
      simp only [uses, List.count_append]
      omega
    · cases hadd
  · exact Nat.le_add_right _ _

theorem count_erase_add {α : Type*} [DecidableEq α] {xs : List α} {x : α} (h : x ∈ xs) (d : α) :
    (xs.erase x).count d + [x].count d = xs.count d := by
  have hperm := (List.perm_cons_erase h).count_eq d
  rw [List.count_cons] at hperm
  rw [hperm, List.count_singleton]

/-- **No event of a well-behaved borrower puts a connection in a second place.** -/
theorem uses_step_le {capacity : ℕ} {p p' : SimpleDataSource2} {e : Event}
    (hok : p.WellBehaved e) (h : p.step capacity e = some p') (d : Conn) :
    p'.uses d ≤ p.uses d := by
  cases moves_of_step h with
  | getConnection => exact Nat.le_refl _
  | take _ hqueue =>
      simp only [uses, hqueue, List.count_append, List.count_cons, List.count_nil]
      omega
  | timeout htaken =>
      have hcount := count_erase_add htaken d
      simp only [uses]
      omega
  | deliver htaken =>
      have hcount := count_erase_add htaken d
      simp only [uses, List.map_append, List.map_singleton, List.count_append]
      omega
  | @close l hhas =>
      have hmem : l ∈ p.borrowed := hhas.resolve_right hok
      -- the lease gives up exactly what the queue gets
      have hperm := ((List.perm_cons_erase hmem).map Lease.conn).count_eq d
      have hadd := uses_closeHandler_le capacity
        { p with
          borrowed := p.borrowed.erase l
          closed := if l ∈ p.closed then p.closed else p.closed ++ [l] } l.conn d
      simp only [uses, List.map_cons, List.count_cons, List.count_nil] at hperm hadd ⊢
      omega
  | decrement => exact Nat.le_refl _
  | call => exact Nat.le_refl _
  | checkWait _ hchecker => simp [uses, hchecker, Checker.conns]
  | checkTake hchecker hqueue =>
      simp only [uses, hchecker, hqueue, Checker.conns, List.count_cons, List.count_nil]
      omega
  | checkCount hchecker => simp [uses, hchecker, Checker.conns]
  | checkReturn hchecker =>
      simp only [uses, hchecker, Checker.conns, List.count_append, List.count_nil]
      omega
  | checkFull hchecker => simp [uses, hchecker, Checker.conns]
  | checkDone hchecker => simp [uses, hchecker, Checker.conns]
  | checkFail hchecker => simp [uses, hchecker, Checker.conns]
  | poolClose => exact Nat.le_refl _
  | poolDrain _ hqueue =>
      simp only [uses, hqueue, List.count_cons]
      omega

theorem innerCalls_closeHandler (capacity : ℕ) (p : SimpleDataSource2) (c : Conn) :
    (closeHandler capacity p c).innerCalls = p.innerCalls := by
  unfold closeHandler add
  split
  · rename_i q hadd
    split at hadd
    · cases hadd
      rfl
    · cases hadd
  · rfl

/-- The calls that reach an inner connection are those of open leases. -/
theorem innerCalls_step {capacity : ℕ} {p p' : SimpleDataSource2} {e : Event}
    (hok : p.WellBehaved e) (h : p.step capacity e = some p') :
    p'.innerCalls = p.innerCalls ∨ ∃ l, p'.innerCalls = p.innerCalls ++ [(l, false)] := by
  cases moves_of_step h with
  | @call l =>
      have hopen : decide (l ∈ p.closed) = false := decide_eq_false hok
      exact .inr ⟨l, by rw [hopen]⟩
  | close => exact .inl (innerCalls_closeHandler _ _ _)
  -- no other event calls an inner connection
  | _ => exact .inl rfl

/-! ## Whole runs -/

/-- What the pool owes its borrowers. -/
structure Exclusive (p : SimpleDataSource2) : Prop where
  idle_once : p.recycledConnections.Nodup
  idle_not_borrowed : ∀ l ∈ p.borrowed, l.conn ∉ p.recycledConnections
  one_borrower : (p.borrowed.map Lease.conn).Nodup
  no_call_after_close : ∀ call ∈ p.innerCalls, call.2 = false

/-- No connection is in two places, and no closed lease has reached one. -/
structure Inv (p : SimpleDataSource2) : Prop where
  uses_le : ∀ c, p.uses c ≤ 1
  calls : ∀ call ∈ p.innerCalls, call.2 = false

theorem Inv.exclusive {p : SimpleDataSource2} (h : Inv p) : Exclusive p where
  idle_once := by
    rw [List.nodup_iff_count_le_one]
    intro c
    have huses := h.uses_le c
    rw [uses] at huses
    omega
  idle_not_borrowed := by
    intro l hl hidle
    have huses := h.uses_le l.conn
    have hborrowed := List.count_pos_iff.mpr (List.mem_map_of_mem (f := Lease.conn) hl)
    have hcount := List.count_pos_iff.mpr hidle
    rw [uses] at huses
    omega
  one_borrower := by
    rw [List.nodup_iff_count_le_one]
    intro c
    have huses := h.uses_le c
    rw [uses] at huses
    omega
  no_call_after_close := h.calls

theorem inv_create (n : ℕ) : Inv (create n) where
  uses_le := by
    intro c
    have hcount := List.nodup_iff_count_le_one.mp (List.nodup_range (n := n)) c
    simpa [uses, create, Checker.conns] using hcount
  calls := fun _ hcall => absurd hcall List.not_mem_nil

theorem inv_step {capacity : ℕ} {p p' : SimpleDataSource2} {e : Event} (hinv : Inv p)
    (hok : p.WellBehaved e) (h : p.step capacity e = some p') : Inv p' where
  uses_le := fun c => Nat.le_trans (uses_step_le hok h c) (hinv.uses_le c)
  calls := by
    intro call hcall
    rcases innerCalls_step hok h with hsame | ⟨l, hmore⟩
    · exact hinv.calls call (hsame ▸ hcall)
    · rw [hmore, List.mem_append, List.mem_singleton] at hcall
      rcases hcall with hold | rfl
      · exact hinv.calls call hold
      · rfl

/-- **In every run in which no borrower uses a proxy it has closed, connections are
owned exclusively**: none is idle twice, idle and borrowed, or borrowed twice, and
no call after a close reaches an inner connection. -/
theorem exclusive_of_well_behaved {capacity n : ℕ} {es : List Event} {p : SimpleDataSource2}
    (hok : Along (step capacity) WellBehaved (create n) es)
    (hrun : run (step capacity) (create n) es = some p) : Exclusive p :=
  (run_invariant (fun _ _ _ hinv => inv_step hinv) (inv_create n) hok hrun).exclusive

/-- A connection borrowed, used and returned, and handed to the next borrower. -/
def borrowTwice : List Event :=
  [.getConnection, .take, .deliver 0, .call ⟨0, 0⟩, .close ⟨0, 0⟩, .decrement,
   .getConnection, .take, .deliver 1, .call ⟨1, 1⟩]

theorem exclusive_borrowTwice :
    ∃ p, run (step 4) (create 3) borrowTwice = some p ∧ p.recycledConnections = [2, 0] ∧
      Exclusive p := by
  have hok : Along (step 4) WellBehaved (create 3) borrowTwice := by decide
  have hrun : run (step 4) (create 3) borrowTwice = some _ := rfl
  exact ⟨_, hrun, rfl, exclusive_of_well_behaved hok hrun⟩

/-! ## A second close -/

/-- Of two borrowers the first closes its proxy twice, as `onError` and then
`onCompleted` of the transaction service do; then two more borrow. -/
def closeTwice : List Event :=
  [.getConnection, .take, .deliver 0, .getConnection, .take, .deliver 1,
   .close ⟨0, 0⟩, .decrement, .close ⟨0, 0⟩, .decrement,
   .getConnection, .take, .deliver 0, .getConnection, .take, .deliver 0]

/-- Connection 0 is in the queue twice after the second `close`, and two borrowers get
it. -/
theorem second_close_duplicates :
    ∃ p, run (step 2) (create 2) closeTwice = some p ∧
      p.borrowed = [⟨1, 1⟩, ⟨2, 0⟩, ⟨3, 0⟩] ∧ ¬ Exclusive p := by
  refine ⟨_, rfl, rfl, ?_⟩
  intro h
  have hone := h.one_borrower
  revert hone
  decide

end SimpleDataSource2

end AuroraSizing.Pool

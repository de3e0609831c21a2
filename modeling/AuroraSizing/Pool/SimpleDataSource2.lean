import AuroraSizing.Foundation.System
import Mathlib.Data.List.Perm.Basic
import Mathlib.Data.Int.Notation

/-!
# The connection pool `SimpleDataSource2`

The pool is a blocking queue of proxies, one for each inner connection, and a
counter. Threads interleave between any two operations on these, so one event is
one operation. A proxy has no state of its own: it goes to one borrower after
another, and `invoke` tells neither who calls nor whether the caller has closed
it. What the model adds is who that is: a lease is one return of `getConnection`,
and a lease is closed once its borrower has called `close`.
-/

namespace AuroraSizing.Pool

/-- An inner connection, and its proxy. -/
abbrev Conn := ℕ

/-- One borrower between a `getConnection` and whatever follows. -/
structure Lease where
  id : ℕ
  conn : Conn
deriving DecidableEq, Repr

/-- The thread of `checkConnection`, by what it has done in this round. -/
inductive Checker where
  | idle
  | waiting
  | took (c : Conn)
  | counted (c : Conn)
  | returned
  /-- An exception it does not catch ended the thread. -/
  | dead
deriving DecidableEq, Repr

structure SimpleDataSource2 where
  recycledConnections : List Conn
  activeConnections : ℤ
  isClosed : Bool
  /-- Calls of `getConnection` that found the pool open and wait in `take()`. -/
  waiting : ℕ
  /-- Taken inside `getConnection`, not returned yet. -/
  taking : List Conn
  /-- Leases whose borrower has not called `close`. -/
  borrowed : List Lease
  /-- Leases whose borrower has. -/
  closed : List Lease
  /-- Calls of `closeHandler` between its two statements. -/
  closing : ℕ
  checker : Checker
  leases : ℕ
  /-- The calls that reached an inner connection, and whether their borrower had
  closed the proxy before. -/
  innerCalls : List (Lease × Bool)
deriving DecidableEq, Repr

/-- The pool whose constructor opened `n` connections. -/
def SimpleDataSource2.create (n : ℕ) : SimpleDataSource2 where
  recycledConnections := List.range n
  activeConnections := 0
  isClosed := false
  waiting := 0
  taking := []
  borrowed := []
  closed := []
  closing := 0
  checker := .idle
  leases := 0
  innerCalls := []

inductive Event where
  /-- `getConnection` on an open pool. -/
  | getConnection
  /-- `getConnection`: `recycledConnections.take()`. -/
  | take
  /-- `getConnection` has waited too long and throws; what it took is gone. -/
  | timeout (c : Conn)
  /-- `getConnection` counts the connection and returns it. -/
  | deliver (c : Conn)
  /-- `close()` on the proxy: `recycledConnections.add(conn)`. -/
  | close (l : Lease)
  /-- The end of a `closeHandler`: `activeConnections.decrementAndGet()`. -/
  | decrement
  /-- Any other call on the proxy. -/
  | call (l : Lease)
  | checkWait
  | checkTake
  | checkCount
  /-- The connection is valid and goes back. -/
  | checkReturn
  | checkDone
  /-- `isValid` throws, or answers false: casting the proxy to `ConnectionProxy`
  throws a `ClassCastException`. -/
  | checkFail
  /-- `close()` on the pool: the first call only sets the flag. -/
  | poolClose
  /-- A later `close()` takes a connection and fails in the same cast. -/
  | poolDrain
deriving DecidableEq, Repr

namespace SimpleDataSource2

/-- `recycledConnections.add(c)`: a full queue throws. -/
def add (capacity : ℕ) (p : SimpleDataSource2) (c : Conn) : Option SimpleDataSource2 :=
  if p.recycledConnections.length < capacity then
    some { p with recycledConnections := p.recycledConnections ++ [c] }
  else none

/-- `closeHandler.accept`, up to the `add`; the counter waits for `decrement`. -/
def closeHandler (capacity : ℕ) (p : SimpleDataSource2) (c : Conn) : SimpleDataSource2 :=
  match p.add capacity c with
  | some p => { p with closing := p.closing + 1 }
  | none => p

/-- The borrower of `l` calls a method of its proxy: it has `l`, open or closed. -/
def has (p : SimpleDataSource2) (l : Lease) : Bool := l ∈ p.borrowed ∨ l ∈ p.closed

def step (capacity : ℕ) (p : SimpleDataSource2) : Event → Option SimpleDataSource2
  | .getConnection => if p.isClosed then none else some { p with waiting := p.waiting + 1 }
  | .take =>
      match p.waiting, p.recycledConnections with
      | n + 1, c :: rest =>
          some { p with waiting := n, recycledConnections := rest, taking := p.taking ++ [c] }
      | _, _ => none
  | .timeout c => if c ∈ p.taking then some { p with taking := p.taking.erase c } else none
  | .deliver c =>
      if c ∈ p.taking then
        some { p with
          taking := p.taking.erase c
          activeConnections := p.activeConnections + 1
          borrowed := p.borrowed ++ [⟨p.leases, c⟩]
          leases := p.leases + 1 }
      else none
  | .close l =>
      if p.has l then
        -- the proxy hands itself to the pool, whoever called it
        some (closeHandler capacity
          { p with
            borrowed := p.borrowed.erase l
            closed := if l ∈ p.closed then p.closed else p.closed ++ [l] } l.conn)
      else none
  | .decrement =>
      if 0 < p.closing then
        some { p with closing := p.closing - 1, activeConnections := p.activeConnections - 1 }
      else none
  | .call l =>
      -- `method.invoke(t, args)`, whoever called it
      if p.has l then
        some { p with innerCalls := p.innerCalls ++ [(l, decide (l ∈ p.closed))] }
      else none
  | .checkWait =>
      match p.isClosed, p.checker with
      | false, .idle => some { p with checker := .waiting }
      | _, _ => none
  | .checkTake =>
      match p.checker, p.recycledConnections with
      | .waiting, c :: rest => some { p with recycledConnections := rest, checker := .took c }
      | _, _ => none
  | .checkCount =>
      match p.checker with
      | .took c =>
          some { p with checker := .counted c, activeConnections := p.activeConnections + 1 }
      | _ => none
  | .checkReturn =>
      match p.checker with
      | .counted c =>
          match ({ p with checker := .returned } : SimpleDataSource2).add capacity c with
          | some p => some p
          | none => some { p with checker := .dead }
      | _ => none
  | .checkDone =>
      match p.checker with
      | .returned =>
          some { p with checker := .idle, activeConnections := p.activeConnections - 1 }
      | _ => none
  | .checkFail =>
      match p.checker with
      | .counted _ => some { p with checker := .dead }
      | _ => none
  | .poolClose => some { p with isClosed := true }
  | .poolDrain =>
      match p.isClosed, p.recycledConnections with
      | true, _ :: rest => some { p with recycledConnections := rest }
      | _, _ => none

/-! ## What a step can do

`Moves` lists the steps with the guards they passed, so that an invariant is proved
by cases on the event and never unfolds `step`. -/

inductive Moves (capacity : ℕ) (p : SimpleDataSource2) : Event → SimpleDataSource2 → Prop
  | getConnection (isOpen : p.isClosed = false) :
      Moves capacity p .getConnection { p with waiting := p.waiting + 1 }
  | take {n : ℕ} {c : Conn} {rest : List Conn} (waiting : p.waiting = n + 1)
      (queue : p.recycledConnections = c :: rest) :
      Moves capacity p .take
        { p with waiting := n, recycledConnections := rest, taking := p.taking ++ [c] }
  | timeout {c : Conn} (taken : c ∈ p.taking) :
      Moves capacity p (.timeout c) { p with taking := p.taking.erase c }
  | deliver {c : Conn} (taken : c ∈ p.taking) :
      Moves capacity p (.deliver c)
        { p with
          taking := p.taking.erase c
          activeConnections := p.activeConnections + 1
          borrowed := p.borrowed ++ [⟨p.leases, c⟩]
          leases := p.leases + 1 }
  | close {l : Lease} (has : l ∈ p.borrowed ∨ l ∈ p.closed) :
      Moves capacity p (.close l) (closeHandler capacity
        { p with
          borrowed := p.borrowed.erase l
          closed := if l ∈ p.closed then p.closed else p.closed ++ [l] } l.conn)
  | decrement (closing : 0 < p.closing) :
      Moves capacity p .decrement
        { p with closing := p.closing - 1, activeConnections := p.activeConnections - 1 }
  | call {l : Lease} (has : l ∈ p.borrowed ∨ l ∈ p.closed) :
      Moves capacity p (.call l)
        { p with innerCalls := p.innerCalls ++ [(l, decide (l ∈ p.closed))] }
  | checkWait (isOpen : p.isClosed = false) (checker : p.checker = .idle) :
      Moves capacity p .checkWait { p with checker := .waiting }
  | checkTake {c : Conn} {rest : List Conn} (checker : p.checker = .waiting)
      (queue : p.recycledConnections = c :: rest) :
      Moves capacity p .checkTake { p with recycledConnections := rest, checker := .took c }
  | checkCount {c : Conn} (checker : p.checker = .took c) :
      Moves capacity p .checkCount
        { p with checker := .counted c, activeConnections := p.activeConnections + 1 }
  | checkReturn {c : Conn} (checker : p.checker = .counted c)
      (room : p.recycledConnections.length < capacity) :
      Moves capacity p .checkReturn
        { p with checker := .returned, recycledConnections := p.recycledConnections ++ [c] }
  | checkFull {c : Conn} (checker : p.checker = .counted c)
      (full : capacity ≤ p.recycledConnections.length) :
      Moves capacity p .checkReturn { p with checker := .dead }
  | checkDone (checker : p.checker = .returned) :
      Moves capacity p .checkDone
        { p with checker := .idle, activeConnections := p.activeConnections - 1 }
  | checkFail {c : Conn} (checker : p.checker = .counted c) :
      Moves capacity p .checkFail { p with checker := .dead }
  | poolClose : Moves capacity p .poolClose { p with isClosed := true }
  | poolDrain {c : Conn} {rest : List Conn} (closed : p.isClosed = true)
      (queue : p.recycledConnections = c :: rest) :
      Moves capacity p .poolDrain { p with recycledConnections := rest }

theorem moves_of_step {capacity : ℕ} {p p' : SimpleDataSource2} {e : Event}
    (h : p.step capacity e = some p') : Moves capacity p e p' := by
  cases e with
  | getConnection =>
      simp only [step] at h
      split at h
      · cases h
      · rename_i hopen
        cases h
        exact .getConnection (by simpa using hopen)
  | take =>
      simp only [step] at h
      split at h
      · rename_i hwaiting hqueue
        cases h
        exact .take hwaiting hqueue
      · cases h
  | timeout c =>
      simp only [step] at h
      split at h
      · rename_i htaken
        cases h
        exact .timeout htaken
      · cases h
  | deliver c =>
      simp only [step] at h
      split at h
      · rename_i htaken
        cases h
        exact .deliver htaken
      · cases h
  | close l =>
      simp only [step] at h
      split at h
      · rename_i hhas
        cases h
        exact .close (of_decide_eq_true hhas)
      · cases h
  | decrement =>
      simp only [step] at h
      split at h
      · rename_i hclosing
        cases h
        exact .decrement hclosing
      · cases h
  | call l =>
      simp only [step] at h
      split at h
      · rename_i hhas
        cases h
        exact .call (of_decide_eq_true hhas)
      · cases h
  | checkWait =>
      simp only [step] at h
      split at h
      · rename_i hopen hchecker
        cases h
        exact .checkWait hopen hchecker
      · cases h
  | checkTake =>
      simp only [step] at h
      split at h
      · rename_i hchecker hqueue
        cases h
        exact .checkTake hchecker hqueue
      · cases h
  | checkCount =>
      simp only [step] at h
      split at h
      · rename_i hchecker
        cases h
        exact .checkCount hchecker
      · cases h
  | checkReturn =>
      simp only [step, add] at h
      split at h
      · rename_i c hchecker
        by_cases hroom : p.recycledConnections.length < capacity
        · simp only [hroom, if_true] at h
          cases h
          exact .checkReturn hchecker hroom
        · simp only [hroom, if_false] at h
          cases h
          exact .checkFull hchecker (Nat.not_lt.mp hroom)
      · cases h
  | checkDone =>
      simp only [step] at h
      split at h
      · rename_i hchecker
        cases h
        exact .checkDone hchecker
      · cases h
  | checkFail =>
      simp only [step] at h
      split at h
      · rename_i hchecker
        cases h
        exact .checkFail hchecker
      · cases h
  | poolClose =>
      cases h
      exact .poolClose
  | poolDrain =>
      simp only [step] at h
      split at h
      · rename_i hclosed hqueue
        cases h
        exact .poolDrain hclosed hqueue
      · cases h

/-- The pool's own check, which nothing calls. -/
def assertInnerState (maximumPoolSize : ℕ) (p : SimpleDataSource2) : Bool :=
  0 ≤ p.activeConnections ∧
    p.activeConnections + p.recycledConnections.length ≤ maximumPoolSize

end SimpleDataSource2

end AuroraSizing.Pool

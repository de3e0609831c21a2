import AuroraSizing.Foundation.RowLocks
import AuroraSizing.Foundation.System
import AuroraSizing.Transaction.Observer

/-!
# Any number of transaction streams

Streams run side by side, each on some connection, one callback at a time. The
answers of the driver are chosen when a callback begins; every call it makes is
then an event of its own, and one the database must bear out.

`UPDATE` and `DELETE` run as READ COMMITTED has it: they find their rows when they
begin, wait while another transaction holds one of them, and then check the
`WHERE` clause again on the version that is there. Which statements the database
refuses, for a unique index or any other reason, is left open: any may raise.
-/

namespace AuroraSizing.Transaction

open Foundation.RowLocks

/-- The stream a statement is of, and the triple in its `WHERE` clause. -/
structure Tag where
  stream : ℕ
  oldKey : RowKey
deriving DecidableEq

structure Line where
  connection : ℕ
  stream : Stream
  /-- The callback that is running. -/
  callback : Option Event
  /-- The calls it has still to make. -/
  calls : List Action
  /-- The rows its next statement found when it began. -/
  found : Option (List ℕ)

structure Server where
  objects : Store Tag ObjectRow
  lines : ℕ → Option Line

inductive Move where
  /-- A client opens a stream; its observer gets this connection. -/
  | accept (stream connection : ℕ) (resultSet : Option JLong)
  /-- gRPC starts a callback. -/
  | deliver (stream : ℕ) (e : Event)
  /-- The callback's next statement begins. -/
  | scan (stream : ℕ)
  /-- The callback's next call returns or throws. -/
  | call (stream : ℕ)
  /-- The callback ends. -/
  | finish (stream : ℕ)

/-- What a call does to the table; `none` while it waits for a lock, and for an
answer that is not the database's. -/
def perform (objects : Store Tag ObjectRow) (stream : ℕ) (l : Line) :
    Action → Option (Store Tag ObjectRow)
  | .execute stmt rows raised =>
      if rows = 0 ∧ raised = true then some objects
      else
        match stmt, stmt.key?, l.found with
        | .insertRecords row, _, _ =>
            if rows = 1 then some (objects.insert l.connection row) else none
        | stmt, some k, some found =>
            if found.all (fun row => !objects.blocked l.connection row) ∧
                rows = (objects.matching l.connection k.matches found).length then
              some (objects.rewrite l.connection ⟨stream, k⟩ k.matches stmt.rewrite found)
            else none
        | _, some _, none => none
        -- a log row
        | _, none, _ => if rows = 1 then some objects else none
  | .commit true => some (objects.commit l.connection)
  | .rollback true => some (objects.rollback l.connection)
  | .commit false | .rollback false | .close _ | .respond _ => some objects

namespace Line

def deliver (jdk : Jdk) (l : Line) (e : Event) : Option Line :=
  match l.callback with
  | none => some { l with
      callback := some e
      calls := (l.stream.observer.callback jdk e).2.trace }
  | some _ => none

def scan (objects : Store Tag ObjectRow) (l : Line) : Option Line :=
  match l.calls, l.found with
  | .execute stmt _ _ :: _, none =>
      stmt.key?.map fun k =>
        { l with found := some (objects.candidates l.connection k.matches) }
  | _, _ => none

def finish (jdk : Jdk) (l : Line) : Option Line :=
  match l.callback, l.calls with
  | some e, [] => some { l with stream := l.stream.deliver jdk e, callback := none }
  | _, _ => none

end Line

namespace Server

def start (rows : List ObjectRow) : Server where
  objects := .load rows
  lines := fun _ => none

def setLine (s : Server) (stream : ℕ) (l : Line) : Server :=
  { s with lines := Function.update s.lines stream (some l) }

theorem setLine_cases {s : Server} {stream stream' : ℕ} {l l' : Line}
    (h : (s.setLine stream l).lines stream' = some l') :
    (stream' = stream ∧ l' = l) ∨ s.lines stream' = some l' := by
  simp only [setLine] at h
  by_cases hstream : stream' = stream
  · subst hstream
    rw [Function.update_self] at h
    exact .inl ⟨rfl, (Option.some.inj h).symm⟩
  · rw [Function.update_of_ne hstream] at h
    exact .inr h

def call (s : Server) (stream : ℕ) (l : Line) : Option Server :=
  match l.calls with
  | a :: calls =>
      (perform s.objects stream l a).map fun objects =>
        { s with objects := objects }.setLine stream { l with calls := calls, found := none }
  | [] => none

def step (jdk : Jdk) (s : Server) : Move → Option Server
  | .accept stream connection resultSet =>
      match s.lines stream with
      | none => some (s.setLine stream ⟨connection, Stream.start resultSet, none, [], none⟩)
      | some _ => none
  | .deliver stream e =>
      (s.lines stream).bind fun l => (l.deliver jdk e).map (s.setLine stream)
  | .scan stream => (s.lines stream).bind fun l => (l.scan s.objects).map (s.setLine stream)
  | .call stream => (s.lines stream).bind (s.call stream)
  | .finish stream => (s.lines stream).bind fun l => (l.finish jdk).map (s.setLine stream)

end Server

end AuroraSizing.Transaction

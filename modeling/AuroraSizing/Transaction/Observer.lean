import AuroraSizing.Foundation.Journal
import AuroraSizing.Objects.Repository

/-!
# The transaction observer

`TransactionServiceImpl.transaction` answers a stream with an anonymous
`StreamObserver`. Its three callbacks are `onNext`, `onError` and
`onCompleted`; `Stream.deliver` runs one of them under gRPC's rules for the
call: a response reaches the client only while the call is open, the observer's
own response ends the call, and an exception that escapes a callback ends it
too, without a response. gRPC may still deliver what it had received before the
end, so `deliver` keeps running callbacks on a closed call.

When `getConnectionObjRepo` throws, the initializer of the observer dereferences
a null connection and `transaction` itself throws: there is no observer and no
callback. So it does when the `prepareStatement` of `GET_NXT_TXN_ID` fails on a
proxy.
-/

namespace AuroraSizing.Transaction

/-- `cmd_trans_type.proto`; the server reads the number, so an undeclared one
falls through every branch. -/
inductive TransType where
  | header
  | insert
  | update
  | rename
  | delete
  | trailer
  | unrecognized
deriving DecidableEq, Repr

def TransType.ofValue (v : ℤ) : TransType :=
  if v = 0 then .header
  else if v = 1 then .insert
  else if v = 2 then .update
  else if v = 3 then .rename
  else if v = 4 then .delete
  else if v = 5 then .trailer
  else .unrecognized

def transType (r : CmdTransactionRequest) : TransType := TransType.ofValue r.transSeqValue

/-- Whether the message is logged as a part: every number but 0 and 5. -/
def isPart (r : CmdTransactionRequest) : Bool :=
  transType r ≠ .header ∧ transType r ≠ .trailer

/-- The fields of the observer. `resultSet` is `none` when `GET_NXT_TXN_ID`
failed and the field stayed null, otherwise the id its row holds. -/
structure Observer where
  txnId : Option JLong := none
  transpartIndex : ℕ := 0
  resultSet : Option JLong
deriving DecidableEq, Repr

/-- `if (!call) throw new SQLException();` -/
def throwUnless (call : Jdbc Bool) : Jdbc Unit := do
  if ← call then pure () else Jdbc.throw .sqlException

/-- `try { body } finally { last }` -/
def tryFinally (body last : Jdbc Unit) : Jdbc Unit :=
  match last.result with
  | .ok _ => ⟨body.result, body.trace ++ last.trace⟩
  | .error e => ⟨.error e, body.trace ++ last.trace⟩

/-- A `catch (SQLException)` that only logs. -/
def logSQLException {α : Type} (call : Jdbc α) : Jdbc Unit :=
  match call.result with
  | .ok _ => ⟨.ok (), call.trace⟩
  | .error .sqlException => ⟨.ok (), call.trace⟩
  | .error e => ⟨.error e, call.trace⟩

/-- `Math.toIntExact` -/
def toIntExact (v : JLong) : Jdbc JInt :=
  if (v.setWidth 32).signExtend 64 = v then pure (v.setWidth 32)
  else Jdbc.throw .arithmeticException

/-- `Optional.get` -/
def optionalGet (v : Option JLong) : Jdbc JLong :=
  match v with
  | some v => pure v
  | none => Jdbc.throw .noSuchElementException

/-- The `switch` of `onNext`. -/
def switchTransSeq (jdk : Jdk) (r : CmdTransactionRequest) (id : JLong) (o : Outcomes) :
    Jdbc Unit :=
  match transType r with
  | .header => pure ()
  | .insert => throwUnless (ObjectRepository.insertRec jdk r.getInsert id o.op)
  | .update => throwUnless (ObjectRepository.updateRec jdk r.getUpdate id o.op)
  | .rename => throwUnless (ObjectRepository.renameDataRecords jdk r.getRename id o.now o.op)
  | .delete => throwUnless (ObjectRepository.deleteDataRecords jdk r.getDelete o.op)
  | .trailer => throwUnless (ObjectRepository.commitTransaction jdk o.commit)
  | .unrecognized => pure ()

/-- The log rows of `onNext`. -/
def insertTransLog (jdk : Jdk) (r : CmdTransactionRequest) (id : JLong) (transpartIndex : ℕ)
    (o : Outcomes) : Jdbc Unit :=
  match transType r with
  | .header => throwUnless (ObjectRepository.insertHeaderLog jdk r.getHeader id o.now o.log)
  | .trailer => pure ()
  | _ => throwUnless (ObjectRepository.insertTranspartLog jdk r id transpartIndex o.log)

/-- The body of `onNext` once the transaction id is known. -/
def serve (jdk : Jdk) (r : CmdTransactionRequest) (id : JLong) (transpartIndex : ℕ)
    (o : Outcomes) : Jdbc Unit := do
  switchTransSeq jdk r id o
  insertTransLog jdk r id transpartIndex o

namespace Observer

/-- `onError`: roll back, close, answer `MsgOnFailure`. -/
def onError (jdk : Jdk) (obs : Observer) (o : Outcomes) : Jdbc Unit := do
  tryFinally (logSQLException (Jdbc.rollback jdk o.rollback))
    (logSQLException (Jdbc.close jdk o.close))
  let id ← optionalGet obs.txnId
  let txnId ← toIntExact id
  Jdbc.act (.respond (.msgOnFailure 1 txnId))

/-- `onCompleted`: commit, close, answer `MsgOnSuccess`. -/
def onCompleted (jdk : Jdk) (obs : Observer) (o : Outcomes) : Jdbc Unit := do
  logSQLException (ObjectRepository.commitTransaction jdk o.commit)
  logSQLException (Jdbc.close jdk o.close)
  let id ← optionalGet obs.txnId
  let txnId ← toIntExact id
  Jdbc.act (.respond (.msgOnSuccess 0 txnId))

/-- `resultSet.getLong(1)`, unless the id is known already. -/
def readTxnId (obs : Observer) (o : Outcomes) : Jdbc JLong :=
  match obs.txnId, obs.resultSet with
  | some id, _ => pure id
  | none, none => Jdbc.throw .nullPointerException
  | none, some id => if o.getLong then pure id else Jdbc.throw .sqlException

/-- The `catch` of `onNext`: a `SQLException` goes to `onError`, anything else
escapes. -/
def handle (jdk : Jdk) (obs : Observer) (o : Outcomes) (body : Jdbc Unit) : Jdbc Unit :=
  match body.result with
  | .error .sqlException =>
      ⟨(obs.onError jdk o).result, body.trace ++ (obs.onError jdk o).trace⟩
  | _ => body

def onNext (jdk : Jdk) (obs : Observer) (r : CmdTransactionRequest) (o : Outcomes) :
    Observer × Jdbc Unit :=
  match (obs.readTxnId o).result with
  | .error e => (obs, obs.handle jdk o (Jdbc.throw e))
  | .ok id =>
      let obs := { obs with txnId := some id }
      let body := serve jdk r id obs.transpartIndex o
      -- `transpartIndex++` is the last statement of the try block
      match body.result, isPart r with
      | .ok _, true => ({ obs with transpartIndex := obs.transpartIndex + 1 }, body)
      | _, _ => (obs, obs.handle jdk o body)

end Observer

/-- What gRPC delivers to the observer; `onError` is its report of a cancelled
call. -/
inductive Callback where
  | onNext (request : CmdTransactionRequest)
  | onCompleted
  | onError
deriving DecidableEq, Repr

abbrev Event := Callback × Outcomes

/-- One transaction stream: the observer, whether its call is open, every call
the observer made, and the responses gRPC sent. -/
structure Stream where
  observer : Observer
  callOpen : Bool := true
  trace : List Action := []
  sent : List TransMsgResponse := []
deriving DecidableEq

def Action.response? : Action → Option TransMsgResponse
  | .respond m => some m
  | _ => none

def Observer.callback (jdk : Jdk) (obs : Observer) : Event → Observer × Jdbc Unit
  | (.onNext r, o) => obs.onNext jdk r o
  | (.onCompleted, o) => (obs, obs.onCompleted jdk o)
  | (.onError, o) => (obs, obs.onError jdk o)

namespace Stream

def start (resultSet : Option JLong) : Stream := { observer := { resultSet := resultSet } }

/-- gRPC closes a cancelled call before it reports the cancellation. -/
def openFor (st : Stream) (e : Event) : Bool := st.callOpen && e.1 != .onError

def deliver (jdk : Jdk) (st : Stream) (e : Event) : Stream :=
  let (obs, run) := st.observer.callback jdk e
  let responses := run.trace.filterMap Action.response?
  { observer := obs
    callOpen := st.openFor e && responses.isEmpty && run.result.isOk
    trace := st.trace ++ run.trace
    sent := if st.openFor e then st.sent ++ responses else st.sent }

/-- The stream after the callbacks gRPC delivered. -/
def run (jdk : Jdk) (st : Stream) (es : List Event) : Stream :=
  es.foldl (deliver jdk) st

@[simp] theorem run_nil (jdk : Jdk) (st : Stream) : run jdk st [] = st := rfl

@[simp] theorem run_cons (jdk : Jdk) (st : Stream) (e : Event) (es : List Event) :
    run jdk st (e :: es) = run jdk (st.deliver jdk e) es := rfl

end Stream

/-! ## The database session behind the connection -/

open Foundation.Journal

/-- What a call on the connection does to its database session: a statement
that changed rows writes, a commit or rollback that returned ends the
transaction. -/
def Action.entries : Action → List (Entry Stmt)
  | .execute s rows _ => if rows = 0 then [] else [.write s]
  | .commit true => [.commit]
  | .rollback true => [.abort]
  | .commit false | .rollback false | .close _ | .respond _ => []

def entriesOf (trace : List Action) : List (Entry Stmt) := trace.flatMap Action.entries

@[simp] theorem entriesOf_append (t u : List Action) :
    entriesOf (t ++ u) = entriesOf t ++ entriesOf u := by
  simp [entriesOf]

/-- The stream's own database session: what it made durable and what it left
open. -/
def Stream.session (st : Stream) : Session Stmt :=
  replay Session.fresh (entriesOf st.trace)

def Stream.durable (st : Stream) : List Stmt := st.session.durable

theorem Stream.session_deliver (jdk : Jdk) (st : Stream) (e : Event) :
    (st.deliver jdk e).session =
      replay st.session (entriesOf (st.observer.callback jdk e).2.trace) := by
  simp [Stream.session, Stream.deliver, replay_append]

end AuroraSizing.Transaction

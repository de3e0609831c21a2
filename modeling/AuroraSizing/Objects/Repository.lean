import AuroraSizing.Objects.Store

/-!
# The write methods of `ObjectRepository`

Each method is a computation that talks to a JDBC connection: it performs calls
one after another, keeps their trace, and returns or throws. What the driver
and the clock answer during one callback of the server is an `Outcomes` record,
so a pattern of SQL failures is a choice of `Outcomes` for every callback.

Which exception a failing call on the connection leaves with depends on the pool.
`ConnectionProxy.invoke` of `SimpleDataSource2` lets the `InvocationTargetException` of
`method.invoke` through, and since `Connection` does not declare it, the proxy raises
`UndeclaredThrowableException`, which no `catch (SQLException)` takes. Statements and
result sets are not proxied.
-/

namespace AuroraSizing

inductive Throwable where
  | sqlException
  | illegalArgumentException
  | illegalStateException
  | nullPointerException
  | noSuchElementException
  | arithmeticException
  | undeclaredThrowableException
deriving DecidableEq, Repr

/-- A call on the connection, with what came of it, or on the response
observer. `execute` counts the rows the statement changed on the connection;
`raised` records a `SQLException` out of executing or closing it. -/
inductive Action where
  | execute (stmt : Stmt) (rows : ℕ) (raised : Bool)
  | commit (ok : Bool)
  | rollback (ok : Bool)
  | close (ok : Bool)
  | respond (response : TransMsgResponse)
deriving DecidableEq, Repr

/-- A computation against the connection. -/
structure Jdbc (α : Type) where
  result : Except Throwable α
  trace : List Action

namespace Jdbc

def pure {α : Type} (a : α) : Jdbc α := ⟨.ok a, []⟩

def throw {α : Type} (e : Throwable) : Jdbc α := ⟨.error e, []⟩

/-- A call that returns without a value of interest. -/
def act (a : Action) : Jdbc Unit := ⟨.ok (), [a]⟩

/-- What a call on the connection leaves with when the driver raises in it. -/
def raised (jdk : Jdk) : Throwable :=
  if jdk.proxied then .undeclaredThrowableException else .sqlException

def commit (jdk : Jdk) (ok : Bool) : Jdbc Unit :=
  ⟨if ok then .ok () else .error (raised jdk), [.commit ok]⟩

def rollback (jdk : Jdk) (ok : Bool) : Jdbc Unit :=
  ⟨if ok then .ok () else .error (raised jdk), [.rollback ok]⟩

/-- The `close` of a proxy is `closeHandler`'s `recycledConnections.add`, which raises
when the queue is full. -/
def close (jdk : Jdk) (ok : Bool) : Jdbc Unit :=
  ⟨if ok then .ok ()
    else .error (if jdk.proxied then .illegalStateException else .sqlException), [.close ok]⟩

def bind {α β : Type} (x : Jdbc α) (f : α → Jdbc β) : Jdbc β :=
  match x.result with
  | .error e => ⟨.error e, x.trace⟩
  | .ok a => ⟨(f a).result, x.trace ++ (f a).trace⟩

instance : Monad Jdbc where
  pure := Jdbc.pure
  bind := Jdbc.bind

section
variable {α β : Type}

@[simp] theorem pure_result (a : α) : (Pure.pure a : Jdbc α).result = .ok a := rfl

@[simp] theorem pure_trace (a : α) : (Pure.pure a : Jdbc α).trace = [] := rfl

@[simp] theorem throw_result (e : Throwable) : (throw e : Jdbc α).result = .error e := rfl

@[simp] theorem throw_trace (e : Throwable) : (throw e : Jdbc α).trace = [] := rfl

@[simp] theorem act_result (a : Action) : (act a).result = .ok () := rfl

@[simp] theorem act_trace (a : Action) : (act a).trace = [a] := rfl

theorem bind_ok {x : Jdbc α} {a : α} (f : α → Jdbc β) (h : x.result = .ok a) :
    x >>= f = ⟨(f a).result, x.trace ++ (f a).trace⟩ := by
  show Jdbc.bind x f = _
  rw [Jdbc.bind, h]

theorem bind_error {x : Jdbc α} {e : Throwable} (f : α → Jdbc β) (h : x.result = .error e) :
    x >>= f = ⟨.error e, x.trace⟩ := by
  show Jdbc.bind x f = _
  rw [Jdbc.bind, h]

theorem bind_assoc {γ : Type} (x : Jdbc α) (f : α → Jdbc β) (g : β → Jdbc γ) :
    x >>= f >>= g = x >>= fun a => f a >>= g := by
  cases hx : x.result with
  | error e => rw [bind_error f hx, bind_error _ hx, bind_error g rfl]
  | ok a =>
      rw [bind_ok f hx, bind_ok _ hx]
      cases hf : (f a).result with
      | error e => rw [bind_error g rfl, bind_error g hf]
      | ok b =>
          rw [bind_ok g rfl, bind_ok g hf, List.append_assoc]

end

end Jdbc

/-- What one prepared statement did: whether `prepareStatement` returned, the
rows `executeUpdate` changed, and whether a `SQLException` came out of
executing or closing it. -/
structure StmtOutcome where
  prepared : Bool := true
  rows : ℕ := 1
  raised : Bool := false
deriving DecidableEq, Repr

/-- Exactly one row, and no exception. -/
def StmtOutcome.good (o : StmtOutcome) : Prop :=
  o.prepared = true ∧ o.rows = 1 ∧ o.raised = false

instance (o : StmtOutcome) : Decidable o.good := by unfold StmtOutcome.good; infer_instance

/-- What the driver and the clock answer during one callback. A callback makes
each of these calls at most once; a `Bool` says that the call returned. -/
structure Outcomes where
  getLong : Bool := true
  op : StmtOutcome := {}
  log : StmtOutcome := {}
  commit : Bool := true
  rollback : Bool := true
  close : Bool := true
  /-- `new Timestamp(System.currentTimeMillis())` -/
  now : Timestamp := ⟨0⟩
deriving DecidableEq, Repr

namespace ObjectRepository

/-- `getSizedByteArray`: `size` times the letter `a`. -/
def getSizedByteArray (size : ℕ) : Bytes := List.replicate size 97

def prepareStatement (jdk : Jdk) (o : StmtOutcome) : Jdbc Unit :=
  if o.prepared then pure () else Jdbc.throw (Jdbc.raised jdk)

def executeUpdate (stmt : Stmt) (o : StmtOutcome) : Jdbc ℕ :=
  if o.raised then ⟨.error .sqlException, [.execute stmt o.rows true]⟩
  else ⟨.ok o.rows, [.execute stmt o.rows false]⟩

/-- `Timestamp.valueOf` -/
def valueOf (jdk : Jdk) (s : String) : Jdbc Timestamp :=
  match jdk.timestampValueOf s with
  | some t => pure t
  | none => Jdbc.throw .illegalArgumentException

/-- `rowsAffected = stmt.executeUpdate(); return rowsAffected == 1;` -/
def executeOne (stmt : Stmt) (o : StmtOutcome) : Jdbc Bool := do
  let rowsAffected ← executeUpdate stmt o
  return rowsAffected == 1

/-- The `setX` calls of `insertRec`. -/
def bindInsertRec (jdk : Jdk) (cmdInsert : CmdInsert) (nextTxnId : JLong)
    (timeUpdate : Timestamp) : Stmt :=
  let metadata := cmdInsert.metadata
  Store.INSERT_RECORDS
    metadata.securityName
    metadata.securityType
    nextTxnId
    timeUpdate
    metadata.updateCount
    metadata.dateCreated
    metadata.dbIdUpdated
    metadata.versionInfo
    (getSizedByteArray 100)
    cmdInsert.mem
    (jdk.toLowerCase metadata.securityName)

def insertRec (jdk : Jdk) (cmdInsert : CmdInsert) (nextTxnId : JLong) (o : StmtOutcome) :
    Jdbc Bool := do
  prepareStatement jdk o
  let timeUpdate ← valueOf jdk cmdInsert.metadata.timeUpdate
  executeOne (bindInsertRec jdk cmdInsert nextTxnId timeUpdate) o

/-- The `setX` calls of `updateRec`. -/
def bindUpdateRec (cmdUpdate : CmdUpdate) (nextTxnId : JLong) (timeUpdate : Timestamp) :
    Stmt :=
  let oldMetaData := cmdUpdate.oldMetadata
  let newMetaData := cmdUpdate.newMetadata
  Store.UPDATE_RECORDS
    newMetaData.securityType
    nextTxnId
    timeUpdate
    newMetaData.updateCount
    newMetaData.dateCreated
    newMetaData.dbIdUpdated
    newMetaData.versionInfo
    (getSizedByteArray 100)
    cmdUpdate.mem
    oldMetaData.securityName
    oldMetaData.updateCount
    oldMetaData.dbIdUpdated

def updateRec (jdk : Jdk) (cmdUpdate : CmdUpdate) (nextTxnId : JLong) (o : StmtOutcome) :
    Jdbc Bool := do
  prepareStatement jdk o
  let timeUpdate ← valueOf jdk cmdUpdate.newMetadata.timeUpdate
  executeOne (bindUpdateRec cmdUpdate nextTxnId timeUpdate) o

/-- The `setX` calls of `deleteDataRecords`. -/
def bindDeleteDataRecords (cmdDeleteData : CmdDelete) : Stmt :=
  let metadata := cmdDeleteData.metadata
  Store.DELETE_RECORDS
    metadata.securityName
    metadata.updateCount
    metadata.dbIdUpdated

def deleteDataRecords (jdk : Jdk) (cmdDeleteData : CmdDelete) (o : StmtOutcome) :
    Jdbc Bool := do
  prepareStatement jdk o
  executeOne (bindDeleteDataRecords cmdDeleteData) o

/-- The `setX` calls of `renameDataRecords`; `now` is the clock's answer. -/
def bindRenameDataRecords (jdk : Jdk) (cmdRenameData : CmdRename) (nextTxnId : JLong)
    (now : Timestamp) : Stmt :=
  let oldMetadata := cmdRenameData.oldMetadata
  let newMetadata := cmdRenameData.newMetadata
  Store.RENAME_RECORDS
    newMetadata.securityName
    (jdk.toLowerCase newMetadata.securityName)
    nextTxnId
    now
    newMetadata.updateCount
    newMetadata.dateCreated
    newMetadata.dbIdUpdated
    newMetadata.versionInfo
    (getSizedByteArray 100)
    oldMetadata.securityName
    oldMetadata.updateCount
    oldMetadata.dbIdUpdated

def renameDataRecords (jdk : Jdk) (cmdRenameData : CmdRename) (nextTxnId : JLong)
    (now : Timestamp) (o : StmtOutcome) : Jdbc Bool := do
  prepareStatement jdk o
  executeOne (bindRenameDataRecords jdk cmdRenameData nextTxnId now) o

/-- A `SQLException` of `commit()` is rethrown, and any other exception is not caught. -/
def commitTransaction (jdk : Jdk) (ok : Bool) : Jdbc Bool := do
  Jdbc.commit jdk ok
  return true

def headerRow (header : CmdTransHeader) (nextTxnId : JLong) (now : Timestamp) : HeaderRow where
  txnlogTransId := nextTxnId
  sourceDbId := header.dbId
  sourceTransId := header.sourceTransId.signExtend 64
  transTypeId := header.transType
  transTimestampUtc := ⟨0⟩
  transName := header.transName
  objectTypeId := header.secType
  applicationNameShort := ""
  applicationNameLong := ""
  userName := ""
  loginId := ""
  userId := ""
  networkAddress := 0
  networkAddressLong := ""
  transFlags := header.transFlags
  detailParts := header.detailParts
  detailBytes := 0
  dbActualTimestampUtc := now
  mem := []

def insertHeaderLog (jdk : Jdk) (header : CmdTransHeader) (nextTxnId : JLong)
    (now : Timestamp) (o : StmtOutcome) : Jdbc Bool := do
  prepareStatement jdk o
  executeOne (Store.INSERT_TRANS_HEADER (headerRow header nextTxnId now)) o

/-- `transpartIndex` is counted without end; the row has the `int` of it. -/
def partRow (request : CmdTransactionRequest) (nextTxnId : JLong) (transpartIndex : ℕ) :
    PartRow where
  txnlogTransId := nextTxnId
  partId := BitVec.ofNat 32 transpartIndex
  eventTypeId := 0
  operationId := request.transSeqValue
  ignoreErrors := "0"
  original := false
  apply := false
  dupinsert := false
  ignoreUpdcountAndSrcdbcheck := false
  mem := []

def insertTranspartLog (jdk : Jdk) (request : CmdTransactionRequest) (nextTxnId : JLong)
    (transpartIndex : ℕ) (o : StmtOutcome) : Jdbc Bool := do
  prepareStatement jdk o
  executeOne (Store.INSERT_TRANS_PARTS (partRow request nextTxnId transpartIndex)) o

end ObjectRepository

end AuroraSizing

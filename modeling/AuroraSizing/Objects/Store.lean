import AuroraSizing.Objects.Messages

/-!
# The statements of `Store`

Each SQL text of `Store` that the transaction service runs is a function of its
`?` placeholders in textual order, so that the `setX(i, …)` calls of a
repository method are the arguments of the text, in order.
-/

namespace AuroraSizing

/-- A row of `objects` (`CREATE_TABLE`). -/
structure ObjectRow where
  name : String
  typeId : JInt
  lastTransaction : JLong
  timeUpdated : Timestamp
  updateCount : JLong
  dateCreated : JInt
  dbIdUpdated : JInt
  versionInfo : JInt
  sdbDiskMem : Bytes
  mem : Bytes
  nameLower : String
deriving DecidableEq, Repr

/-- A row of `tdms_trans_header_primary` (`CREATE_TRANS_HEADER_TABLE`). -/
structure HeaderRow where
  txnlogTransId : JLong
  sourceDbId : JInt
  sourceTransId : JLong
  transTypeId : JInt
  transTimestampUtc : Timestamp
  transName : String
  objectTypeId : JInt
  applicationNameShort : String
  applicationNameLong : String
  userName : String
  loginId : String
  userId : String
  networkAddress : JLong
  networkAddressLong : String
  transFlags : JInt
  detailParts : JInt
  detailBytes : JInt
  dbActualTimestampUtc : Timestamp
  mem : Bytes
deriving DecidableEq, Repr

/-- A row of `tdms_trans_part_primary` (`CREATE_TRANS_PARTS_TABLE`). -/
structure PartRow where
  txnlogTransId : JLong
  partId : JInt
  eventTypeId : JInt
  operationId : ℤ
  ignoreErrors : String
  original : Bool
  apply : Bool
  dupinsert : Bool
  ignoreUpdcountAndSrcdbcheck : Bool
  mem : Bytes
deriving DecidableEq, Repr

/-- `WHERE name = ? AND updateCount = ? AND dbIdUpdated = ?` -/
structure RowKey where
  name : String
  updateCount : JLong
  dbIdUpdated : JInt
deriving DecidableEq, Repr

def RowKey.matches (k : RowKey) (r : ObjectRow) : Bool :=
  r.name = k.name ∧ r.updateCount = k.updateCount ∧ r.dbIdUpdated = k.dbIdUpdated

/-- The triple a row carries. -/
def ObjectRow.rowKey (r : ObjectRow) : RowKey := ⟨r.name, r.updateCount, r.dbIdUpdated⟩

@[simp] theorem RowKey.matches_iff {k : RowKey} {r : ObjectRow} :
    k.matches r = true ↔ r.rowKey = k := by
  cases k
  simp [RowKey.matches, ObjectRow.rowKey]

/-- The `SET` clause of `UPDATE_RECORDS`. -/
structure UpdateSet where
  typeId : JInt
  lastTransaction : JLong
  timeUpdated : Timestamp
  updateCount : JLong
  dateCreated : JInt
  dbIdUpdated : JInt
  versionInfo : JInt
  sdbDiskMem : Bytes
  mem : Bytes
deriving DecidableEq, Repr

def UpdateSet.apply (u : UpdateSet) (r : ObjectRow) : ObjectRow :=
  { r with
    typeId := u.typeId
    lastTransaction := u.lastTransaction
    timeUpdated := u.timeUpdated
    updateCount := u.updateCount
    dateCreated := u.dateCreated
    dbIdUpdated := u.dbIdUpdated
    versionInfo := u.versionInfo
    sdbDiskMem := u.sdbDiskMem
    mem := u.mem }

/-- The `SET` clause of `RENAME_RECORDS`. -/
structure RenameSet where
  name : String
  nameLower : String
  lastTransaction : JLong
  timeUpdated : Timestamp
  updateCount : JLong
  dateCreated : JInt
  dbIdUpdated : JInt
  versionInfo : JInt
  sdbDiskMem : Bytes
deriving DecidableEq, Repr

def RenameSet.apply (u : RenameSet) (r : ObjectRow) : ObjectRow :=
  { r with
    name := u.name
    nameLower := u.nameLower
    lastTransaction := u.lastTransaction
    timeUpdated := u.timeUpdated
    updateCount := u.updateCount
    dateCreated := u.dateCreated
    dbIdUpdated := u.dbIdUpdated
    versionInfo := u.versionInfo
    sdbDiskMem := u.sdbDiskMem }

inductive Stmt where
  | insertRecords (row : ObjectRow)
  | updateRecords (set : UpdateSet) (key : RowKey)
  | renameRecords (set : RenameSet) (key : RowKey)
  | deleteRecords (key : RowKey)
  | insertTransHeader (row : HeaderRow)
  | insertTransParts (row : PartRow)
deriving DecidableEq, Repr

namespace Store

def INSERT_RECORDS (p₁ : String) (p₂ : JInt) (p₃ : JLong) (p₄ : Timestamp) (p₅ : JLong)
    (p₆ p₇ p₈ : JInt) (p₉ p₁₀ : Bytes) (p₁₁ : String) : Stmt :=
  .insertRecords ⟨p₁, p₂, p₃, p₄, p₅, p₆, p₇, p₈, p₉, p₁₀, p₁₁⟩

def UPDATE_RECORDS (p₁ : JInt) (p₂ : JLong) (p₃ : Timestamp) (p₄ : JLong) (p₅ p₆ p₇ : JInt)
    (p₈ p₉ : Bytes) (p₁₀ : String) (p₁₁ : JLong) (p₁₂ : JInt) : Stmt :=
  .updateRecords
    { typeId := p₁, lastTransaction := p₂, timeUpdated := p₃, updateCount := p₄
      dateCreated := p₅, dbIdUpdated := p₆, versionInfo := p₇, sdbDiskMem := p₈, mem := p₉ }
    { name := p₁₀, updateCount := p₁₁, dbIdUpdated := p₁₂ }

def DELETE_RECORDS (p₁ : String) (p₂ : JLong) (p₃ : JInt) : Stmt :=
  .deleteRecords { name := p₁, updateCount := p₂, dbIdUpdated := p₃ }

def RENAME_RECORDS (p₁ p₂ : String) (p₃ : JLong) (p₄ : Timestamp) (p₅ : JLong)
    (p₆ p₇ p₈ : JInt) (p₉ : Bytes) (p₁₀ : String) (p₁₁ : JLong) (p₁₂ : JInt) : Stmt :=
  .renameRecords
    { name := p₁, nameLower := p₂, lastTransaction := p₃, timeUpdated := p₄
      updateCount := p₅, dateCreated := p₆, dbIdUpdated := p₇, versionInfo := p₈
      sdbDiskMem := p₉ }
    { name := p₁₀, updateCount := p₁₁, dbIdUpdated := p₁₂ }

def INSERT_TRANS_HEADER (row : HeaderRow) : Stmt := .insertTransHeader row

def INSERT_TRANS_PARTS (row : PartRow) : Stmt := .insertTransParts row

end Store

/-- The rows of `objects` a statement addresses. -/
def Stmt.key? : Stmt → Option RowKey
  | .updateRecords _ k | .renameRecords _ k | .deleteRecords k => some k
  | .insertRecords _ | .insertTransHeader _ | .insertTransParts _ => none

/-- What a statement leaves of a row it addresses; `none` deletes it. -/
def Stmt.rewrite : Stmt → ObjectRow → Option ObjectRow
  | .updateRecords u _, r => some (u.apply r)
  | .renameRecords u _, r => some (u.apply r)
  | .deleteRecords _, _ => none
  | .insertRecords _, r | .insertTransHeader _, r | .insertTransParts _, r => some r

end AuroraSizing

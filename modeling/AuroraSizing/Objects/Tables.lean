import AuroraSizing.Cache.ObjectDTO
import AuroraSizing.Foundation.KeyedRows
import AuroraSizing.Objects.Repository

/-!
# The objects table and one connection to it

`ObjectsTable` carries the three unique indexes of `runDDL`. A `Database` is the
committed table, the table as the open transaction sees it, and whether that
transaction is aborted: on PostgreSQL an error in a transaction makes every later
statement of it fail and its commit a rollback, on H2 it does not
(`abortsOnError`).
-/

namespace AuroraSizing

open Foundation.KeyedRows

structure ObjectsTable where
  rows : List ObjectRow
  objectTypeidName : Unique (fun r : ObjectRow => (r.typeId, r.nameLower)) rows
  objectLowerName : Unique ObjectRow.nameLower rows
  objectName : Unique ObjectRow.name rows

namespace ObjectsTable

def empty : ObjectsTable where
  rows := []
  objectTypeidName := List.nodup_nil
  objectLowerName := List.nodup_nil
  objectName := List.nodup_nil

/-- The table with these rows; `none` is a unique violation. -/
def ofRows (rows : List ObjectRow) : Option ObjectsTable :=
  if h : Unique (fun r : ObjectRow => (r.typeId, r.nameLower)) rows ∧
      Unique ObjectRow.nameLower rows ∧ Unique ObjectRow.name rows then
    some ⟨rows, h.1, h.2.1, h.2.2⟩
  else none

end ObjectsTable

/-- Every row stands under its own lower-cased name. -/
def LowerNames (jdk : Jdk) (rows : List ObjectRow) : Prop :=
  ∀ r ∈ rows, r.nameLower = jdk.toLowerCase r.name

/-- How many rows the statement changes. -/
def Stmt.affected (s : Stmt) (rows : List ObjectRow) : ℕ :=
  match s.key? with
  | some k => (rows.filter k.matches).length
  | none => 1

/-- The objects table after the statement, before its indexes are checked. -/
def Stmt.run (s : Stmt) (rows : List ObjectRow) : List ObjectRow :=
  match s, s.key? with
  | .insertRecords row, _ => rows ++ [row]
  | _, some k => Foundation.KeyedRows.rewrite k.matches s.rewrite rows
  | _, none => rows

structure Database where
  committed : ObjectsTable
  current : ObjectsTable
  aborted : Bool

namespace Database

def empty : Database := ⟨.empty, .empty, false⟩

def execute (abortsOnError : Bool) (db : Database) (s : Stmt) : StmtOutcome × Database :=
  if db.aborted then ({ rows := 0, raised := true }, db)
  else
    match ObjectsTable.ofRows (s.run db.current.rows) with
    | some table => ({ rows := s.affected db.current.rows }, { db with current := table })
    | none => ({ rows := 0, raised := true }, { db with aborted := abortsOnError })

def commit (db : Database) : Database :=
  if db.aborted then ⟨db.committed, db.committed, false⟩ else ⟨db.current, db.current, false⟩

def rollback (db : Database) : Database := ⟨db.committed, db.committed, false⟩

end Database

/-! ## Reading -/

/-- The columns of `GET_FULL_OBJECT`, as `getFullObject` reads them. -/
def ObjectRow.toDTO (jdk : Jdk) (r : ObjectRow) : Cache.ObjectDTO where
  name := r.name
  typeId := r.typeId
  lastTransaction := r.lastTransaction
  updateCount := r.updateCount
  dateCreated := r.dateCreated
  dbIdUpdated := r.dbIdUpdated
  versionInfo := r.versionInfo
  timeUpdated := jdk.timestampText r.timeUpdated
  mem := r.mem

/-- `GET_FULL_OBJECT`: the first row with `nameLower = ?`. -/
def Store.GET_FULL_OBJECT (table : ObjectsTable) (p₁ : String) : Option ObjectRow :=
  lookup ObjectRow.nameLower table.rows p₁

def ObjectRepository.getFullObject (jdk : Jdk) (table : ObjectsTable) (secKey : String) :
    Option Cache.ObjectDTO :=
  (Store.GET_FULL_OBJECT table (jdk.toLowerCase secKey)).map (ObjectRow.toDTO jdk)

/-! ## Calls of the write methods -/

/-- A call of one of the four write methods, with a `time_update` that
`Timestamp.valueOf` accepts; `now` is the clock's answer. -/
inductive Call (jdk : Jdk) where
  | insertRec (cmdInsert : CmdInsert) (nextTxnId : JLong) (timeUpdate : Timestamp)
      (valid : jdk.timestampValueOf cmdInsert.metadata.timeUpdate = some timeUpdate)
  | updateRec (cmdUpdate : CmdUpdate) (nextTxnId : JLong) (timeUpdate : Timestamp)
      (valid : jdk.timestampValueOf cmdUpdate.newMetadata.timeUpdate = some timeUpdate)
  | renameDataRecords (cmdRename : CmdRename) (nextTxnId : JLong) (now : Timestamp)
  | deleteDataRecords (cmdDelete : CmdDelete)

namespace Call

variable {jdk : Jdk}

def perform (o : StmtOutcome) : Call jdk → Jdbc Bool
  | insertRec cmd id _ _ => ObjectRepository.insertRec jdk cmd id o
  | updateRec cmd id _ _ => ObjectRepository.updateRec jdk cmd id o
  | renameDataRecords cmd id now => ObjectRepository.renameDataRecords jdk cmd id now o
  | deleteDataRecords cmd => ObjectRepository.deleteDataRecords jdk cmd o

/-- The statement the method executes, its parameters set. -/
def stmt : Call jdk → Stmt
  | insertRec cmd id time _ => ObjectRepository.bindInsertRec jdk cmd id time
  | updateRec cmd id time _ => ObjectRepository.bindUpdateRec cmd id time
  | renameDataRecords cmd id now => ObjectRepository.bindRenameDataRecords jdk cmd id now
  | deleteDataRecords cmd => ObjectRepository.bindDeleteDataRecords cmd

/-- Each method executes its statement, and reports whether it changed one row. -/
theorem perform_spec (c : Call jdk) {o : StmtOutcome} (h : o.prepared = true) :
    c.perform o = ObjectRepository.executeOne c.stmt o := by
  have hprepare : ObjectRepository.prepareStatement jdk o = pure () := if_pos h
  cases c with
  | insertRec cmd id time valid =>
      have htime : ObjectRepository.valueOf jdk cmd.metadata.timeUpdate = pure time := by
        rw [ObjectRepository.valueOf, valid]
      rw [perform, ObjectRepository.insertRec, hprepare, htime]
      rfl
  | updateRec cmd id time valid =>
      have htime : ObjectRepository.valueOf jdk cmd.newMetadata.timeUpdate = pure time := by
        rw [ObjectRepository.valueOf, valid]
      rw [perform, ObjectRepository.updateRec, hprepare, htime]
      rfl
  | renameDataRecords cmd id now =>
      rw [perform, ObjectRepository.renameDataRecords, hprepare]
      rfl
  | deleteDataRecords cmd =>
      rw [perform, ObjectRepository.deleteDataRecords, hprepare]
      rfl

theorem executeOne_result (s : Stmt) (o : StmtOutcome) :
    (ObjectRepository.executeOne s o).result =
      if o.raised then .error .sqlException else .ok (o.rows == 1) := by
  unfold ObjectRepository.executeOne ObjectRepository.executeUpdate
  cases o.raised <;> rfl

end Call

inductive Step (jdk : Jdk) where
  | call (c : Call jdk)
  | commit
  | rollback

namespace Database

variable {jdk : Jdk}

/-- A step, and what the method returned or threw. -/
def step (abortsOnError : Bool) (db : Database) :
    Step jdk → Option (Except Throwable Bool) × Database
  | .call c =>
      let (o, db') := db.execute abortsOnError c.stmt
      (some (c.perform o).result, db')
  | .commit => (none, db.commit)
  | .rollback => (none, db.rollback)

def run (abortsOnError : Bool) : Database → List (Step jdk) →
    List (Option (Except Throwable Bool)) × Database
  | db, [] => ([], db)
  | db, s :: steps =>
      let (reply, db) := db.step abortsOnError s
      let (replies, db) := run abortsOnError db steps
      (reply :: replies, db)

end Database

end AuroraSizing

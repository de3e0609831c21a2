import AuroraSizing.Cache.WholeRead

/-!
# The four reads of one object

`ObjServiceImpl.getObject` reads the mem alone, `getObjectExt` the whole object, with or
without the caches, and `ObjServiceImpl2.getObjectExt` does so asynchronously. For a name
that is not there the repositories answer an empty `Optional`. `getObject` and the
asynchronous service test it; both ways through `ObjServiceImpl.getObjectExt` call `get()`
first, and its `catch` logs the `NoSuchElementException` and answers nothing.
-/

namespace AuroraSizing.Reads

open Cache Foundation.KeyedRows

/-- `error_type.proto` -/
inductive ErrorType where
  | errInvalidArguments
  | sdbErrConnectionLimit
  | sdbErrAuthFailNoCredential
  | sdbErrAuthFailInvalidCredential
  | sdbErrPermissionDenied
  | sdbErrUnsupportedVersion
  | sdbErrIndexNotFound
  | sdbErrObjectAlreadyExists
  | errUnsupportedOperation
  | sdbErrObjectNotFound
  | sdbErrObjectInvalid
  | errObjectNotFound
  | errPermissionDenied
  | errNotConsistent
  | errOverflow
deriving DecidableEq, Repr

inductive CmdGetByNameResponse where
  | errorType (errorType : ErrorType)
  | security (mem : Bytes)
deriving DecidableEq, Repr

inductive CmdGetByNameExtResponse where
  | msgOnSuccess (m : MsgOnSuccess)
  | msgOnFailure (errorType : ErrorType)
deriving DecidableEq, Repr

/-- What a handler does to its `responseObserver`. -/
structure Exchange (α : Type) where
  responses : List α
  completed : Bool
deriving DecidableEq, Repr

/-! ## The repositories -/

/-- `GET_MEM`: the mem of every row with `nameLower = ?`. -/
def Store.GET_MEM (table : ObjectsTable) (p₁ : String) : List Bytes :=
  (table.rows.filter fun r => r.nameLower = p₁).map ObjectRow.mem

/-- `while (rs.next()) { arrayContainsMem = rs.getBytes("mem"); }` -/
def ObjectRepository.getMemByKeyInBytes (jdk : Jdk) (table : ObjectsTable) (secKey : String) :
    Option Bytes :=
  (Store.GET_MEM table (jdk.toLowerCase secKey)).foldl (fun _ mem => some mem) none

/-- `Repository.getFullObject` of the asynchronous server; `dateText` is the text of the
date its driver answers. -/
def Repository.getFullObject (jdk : Jdk) (dateText : Timestamp → String) (table : ObjectsTable)
    (secKey : String) : Option MsgOnSuccess :=
  match table.rows.filter fun r => r.nameLower = jdk.toLowerCase secKey with
  | [rowData] =>
      some
        { mem := rowData.mem
          metadata :=
            { securityName := rowData.name
              securityType := rowData.typeId
              lastTxnId := rowData.lastTransaction
              updateCount := rowData.updateCount
              dateCreated := rowData.dateCreated
              dbIdUpdated := rowData.dbIdUpdated
              versionInfo := rowData.versionInfo
              timeUpdate := dateText rowData.timeUpdated } }
  | _ => none

/-! ## The handlers -/

def ObjServiceImpl.getObject (jdk : Jdk) (table : ObjectsTable) (securityName : String) :
    Exchange CmdGetByNameResponse :=
  match ObjectRepository.getMemByKeyInBytes jdk table securityName with
  | some mem => ⟨[.security mem], true⟩
  | none => ⟨[.errorType .errObjectNotFound], true⟩

/-- The response both `getObjectExt` build from their `Optional`. -/
def response (msgOnSuccess : Option MsgOnSuccess) : CmdGetByNameExtResponse :=
  match msgOnSuccess with
  | some m => .msgOnSuccess m
  | none => .msgOnFailure .errObjectNotFound

/-- `sync` inside the `try` of `getObjectExt`, whose `catch` only logs. -/
def ObjServiceImpl.sync (msgOnSuccess : Except Throwable (Option MsgOnSuccess)) :
    Exchange CmdGetByNameExtResponse :=
  match msgOnSuccess with
  | .ok msgOnSuccess => ⟨[response msgOnSuccess], true⟩
  | .error _ => ⟨[], false⟩

/-- With the cache off. -/
def ObjServiceImpl.getObjectExt (jdk : Jdk) (table : ObjectsTable) (securityName : String) :
    Exchange CmdGetByNameExtResponse :=
  ObjServiceImpl.sync
    ((reply (AuroraSizing.ObjectRepository.getFullObject jdk table securityName)).map some)

/-- With the cache on. -/
def ObjServiceImpl.getObjectExtCached (jdk : Jdk) (malformed : Bytes → String) (c : Cluster)
    (server : ℕ) (securityName : String) : Exchange CmdGetByNameExtResponse :=
  ObjServiceImpl.sync
    ((reply (NearCachedObjectRepository.getFullObject jdk malformed c server
      securityName).2).map some)

def ObjServiceImpl2.getObjectExt (jdk : Jdk) (dateText : Timestamp → String)
    (table : ObjectsTable) (securityName : String) : Exchange CmdGetByNameExtResponse :=
  ⟨[response (Repository.getFullObject jdk dateText table securityName)], true⟩

/-! ## The agreement -/

def CmdGetByNameResponse.content : CmdGetByNameResponse → Except ErrorType Bytes
  | .errorType e => .error e
  | .security mem => .ok mem

def CmdGetByNameExtResponse.content : CmdGetByNameExtResponse → Except ErrorType Bytes
  | .msgOnSuccess m => .ok m.mem
  | .msgOnFailure e => .error e

/-- Exactly one response, which carries this, and then the end of the call. -/
def Exchange.Answers {α : Type} (x : Exchange α) (content : α → Except ErrorType Bytes)
    (expected : Except ErrorType Bytes) : Prop :=
  x.responses.map content = [expected] ∧ x.completed = true

/-- The mem under the name, in any spelling. -/
def expected (jdk : Jdk) (table : ObjectsTable) (securityName : String) : Except ErrorType Bytes :=
  match lookup ObjectRow.nameLower table.rows (jdk.toLowerCase securityName) with
  | some r => .ok r.mem
  | none => .error .errObjectNotFound

/-- All four ways answer once, and the same. -/
structure ReadsAgree (jdk : Jdk) (malformed : Bytes → String) (dateText : Timestamp → String)
    (server : ℕ) (table : ObjectsTable) (securityName : String) : Prop where
  getObject : (ObjServiceImpl.getObject jdk table securityName).Answers
    CmdGetByNameResponse.content (expected jdk table securityName)
  getObjectExt : (ObjServiceImpl.getObjectExt jdk table securityName).Answers
    CmdGetByNameExtResponse.content (expected jdk table securityName)
  getObjectExtCached :
    (ObjServiceImpl.getObjectExtCached jdk malformed (.start table) server securityName).Answers
      CmdGetByNameExtResponse.content (expected jdk table securityName)
  async : (ObjServiceImpl2.getObjectExt jdk dateText table securityName).Answers
    CmdGetByNameExtResponse.content (expected jdk table securityName)

variable (jdk : Jdk) (malformed : Bytes → String) (dateText : Timestamp → String) (server : ℕ)
  (table : ObjectsTable) (securityName : String)

theorem getMemByKeyInBytes_eq :
    ObjectRepository.getMemByKeyInBytes jdk table securityName =
      (lookup ObjectRow.nameLower table.rows (jdk.toLowerCase securityName)).map
        ObjectRow.mem := by
  unfold ObjectRepository.getMemByKeyInBytes Store.GET_MEM
  rw [filter_key_eq table.objectLowerName]
  cases lookup ObjectRow.nameLower table.rows (jdk.toLowerCase securityName) <;> rfl

/-- Empty caches change nothing: the cached service reads the table. -/
theorem getFullObject_start :
    (NearCachedObjectRepository.getFullObject jdk malformed (.start table) server
      securityName).2 = ObjectRepository.getFullObject jdk table securityName := by
  have hmiss : (Cluster.start table).getFromRedis malformed securityName true = none := rfl
  rw [getFullObject_of_miss rfl hmiss]
  rfl

theorem getObjectExtCached_start :
    ObjServiceImpl.getObjectExtCached jdk malformed (.start table) server securityName =
      ObjServiceImpl.getObjectExt jdk table securityName := by
  unfold ObjServiceImpl.getObjectExtCached ObjServiceImpl.getObjectExt
  rw [getFullObject_start]

theorem getObject_answers :
    (ObjServiceImpl.getObject jdk table securityName).Answers CmdGetByNameResponse.content
      (expected jdk table securityName) := by
  unfold ObjServiceImpl.getObject expected
  rw [getMemByKeyInBytes_eq]
  cases lookup ObjectRow.nameLower table.rows (jdk.toLowerCase securityName) <;>
    exact ⟨rfl, rfl⟩

theorem async_answers :
    (ObjServiceImpl2.getObjectExt jdk dateText table securityName).Answers
      CmdGetByNameExtResponse.content (expected jdk table securityName) := by
  unfold ObjServiceImpl2.getObjectExt Repository.getFullObject expected
  rw [filter_key_eq table.objectLowerName]
  cases lookup ObjectRow.nameLower table.rows (jdk.toLowerCase securityName) <;>
    exact ⟨rfl, rfl⟩

/-- `get()` on the empty `Optional` leaves the call without an answer. -/
theorem getObjectExt_answers_iff :
    (ObjServiceImpl.getObjectExt jdk table securityName).Answers CmdGetByNameExtResponse.content
        (expected jdk table securityName) ↔
      ∃ r ∈ table.rows, r.nameLower = jdk.toLowerCase securityName := by
  unfold ObjServiceImpl.getObjectExt ObjectRepository.getFullObject Store.GET_FULL_OBJECT expected
  cases hlookup : lookup ObjectRow.nameLower table.rows (jdk.toLowerCase securityName) with
  | some r =>
      have hfound : ∃ r ∈ table.rows, r.nameLower = jdk.toLowerCase securityName :=
        ⟨r, (lookup_eq_some table.objectLowerName).mp hlookup⟩
      exact ⟨fun _ => hfound, fun _ => ⟨rfl, rfl⟩⟩
  | none =>
      have hnone := lookup_eq_none.mp hlookup
      constructor
      · rintro ⟨-, hcompleted⟩
        cases hcompleted
      · rintro ⟨r, hr, hkey⟩
        exact absurd hkey (hnone r hr)

/-- **The single-object reads agree exactly on the names that exist.** For another name
`getObjectExt` sends no response, with the cache or without it, and the client waits. -/
theorem reads_agree_iff :
    ReadsAgree jdk malformed dateText server table securityName ↔
      ∃ r ∈ table.rows, r.nameLower = jdk.toLowerCase securityName := by
  rw [← getObjectExt_answers_iff]
  constructor
  · exact fun h => h.getObjectExt
  · intro h
    exact
      { getObject := getObject_answers jdk table securityName
        getObjectExt := h
        getObjectExtCached := by rwa [getObjectExtCached_start]
        async := async_answers jdk dateText table securityName }

/-- A name the table does not hold: `getObject` says so, `getObjectExt` says nothing. -/
theorem absent_name_unanswered :
    ObjServiceImpl.getObject Jdk.ascii .empty "testSec-10" =
        ⟨[.errorType .errObjectNotFound], true⟩ ∧
      ObjServiceImpl.getObjectExt Jdk.ascii .empty "testSec-10" = ⟨[], false⟩ ∧
      ¬ ReadsAgree Jdk.ascii (fun _ => "") Jdk.ascii.timestampText 0 .empty "testSec-10" := by
  have hunanswered : ObjServiceImpl.getObjectExt Jdk.ascii .empty "testSec-10" = ⟨[], false⟩ := rfl
  refine ⟨rfl, hunanswered, ?_⟩
  intro h
  have hcompleted := h.getObjectExt.2
  rw [hunanswered] at hcompleted
  cases hcompleted

end AuroraSizing.Reads

import AuroraSizing.Objects.ResultSet
import AuroraSizing.Objects.Tables
import Mathlib.Data.List.Perm.Subperm

/-!
# The reads of many objects

The handlers that read several rows: the lookups, and the two kinds of multi-get, each
with a streaming form. A repository method answers a list, the handler sends it and
completes the call; a handler whose method throws logs it and does neither.

The multi-gets ask for their names with one `in (…)`. `corresponds_iff` is what that
leaves of an answer by position.
-/

namespace AuroraSizing.MultiReads

open ResultSet Foundation.KeyedRows

/-! ## Messages -/

/-- How the handler leaves the call. -/
inductive Ending where
  | onCompleted
  | onError
  /-- Neither was called. -/
  | pending
deriving DecidableEq, Repr

structure Exchange (β : Type) where
  responses : List β
  ending : Ending
deriving DecidableEq, Repr

/-- `CmdGetManyByNameResponse.RequestResponse`, and the message of the stream. -/
inductive RequestResponse where
  | msgOnFailure
  | msgOnSuccess (mem : Bytes)
deriving DecidableEq, Repr

/-- `CmdGetManyByNameExtResponse.ResponseMessage`, and the message of the stream. -/
inductive ResponseMessage where
  | msgOnSuccess (hasSucceeded : Bool) (metadata : Metadata) (mem : Bytes)
  | msgOnFailure (hasSucceeded : Bool)
deriving DecidableEq, Repr

inductive Response where
  | cmdLookupByNameResponse (securityNames : List String)
  | cmdLookupByNameResponseStream (securityName : String)
  | cmdNameLookupByTypeResponse (securityNames : List String)
  | cmdNameLookupByTypeResponseStream (securityName : String)
  | cmdGetManyByNameResponse (securityCount : JInt) (requestResponse : List RequestResponse)
  | cmdGetManyByNameResponseStream (messageResponse : RequestResponse)
  | cmdGetManyByNameExtResponse (count : JInt) (resp : List ResponseMessage)
  | cmdGetManyByNameExtResponseStream (requestResponse : ResponseMessage)
deriving DecidableEq, Repr

/-! ## The repository

`rows` is what the method's query finds. -/

/-- The loop of both lookups: `secKeys.add(rs.getString(1))`. -/
def secKeys (fails : Failures) (rows : List ObjectRow) : Except Throwable (List String) :=
  catching isException (query fails (fun _ => none) ObjectRow.name rows)

def ObjectRepository.lookup (fails : Failures) (rows : List ObjectRow) :
    Except Throwable (List String) :=
  secKeys fails rows

def ObjectRepository.lookupById (fails : Failures) (rows : List ObjectRow) :
    Except Throwable (List String) :=
  secKeys fails rows

def ObjectRepository.getManyMemByName (fails : Failures) (rows : List ObjectRow) :
    Except Throwable (List Bytes) :=
  catching isSQLException (query fails (fun _ => none) ObjectRow.mem rows)

def fullSecurity (jdk : Jdk) (row : ObjectRow) : ResponseMessage :=
  .msgOnSuccess true
    { securityName := row.name
      securityType := row.typeId
      updateCount := row.updateCount
      dateCreated := row.dateCreated
      timeUpdate := jdk.timestampText row.timeUpdated
      dbIdUpdated := row.dbIdUpdated
      lastTxnId := row.lastTransaction
      versionInfo := row.versionInfo } row.mem

/-- The `catch (SQLException throwables)` around one row. -/
def rowFailure (e : Throwable) : Option ResponseMessage :=
  if isSQLException e then some (.msgOnFailure false) else none

/-- The loop of both full multi-gets. -/
def fullSecurities (jdk : Jdk) (fails : Failures) (rows : List ObjectRow) :
    Except Throwable (List ResponseMessage) :=
  catching isSQLException (query fails rowFailure (fullSecurity jdk) rows)

def ObjectRepository.getManyFullSecurities (jdk : Jdk) (fails : Failures)
    (rows : List ObjectRow) : Except Throwable (List ResponseMessage) :=
  fullSecurities jdk fails rows

def ObjectRepository.getManySDBByNameStream (jdk : Jdk) (fails : Failures)
    (rows : List ObjectRow) : Except Throwable (List ResponseMessage) :=
  fullSecurities jdk fails rows

/-! ## The handlers -/

/-- The `try` of a handler: send what the method returns and complete; its `catch` logs. -/
def respond {α β : Type} (result : Except Throwable α) (send : α → List β) : Exchange β :=
  match result with
  | .ok a => ⟨send a, .onCompleted⟩
  | .error _ => ⟨[], .pending⟩

namespace ObjServiceImpl

def lookupByName (fails : Failures) (rows : List ObjectRow) : Exchange Response :=
  respond (ObjectRepository.lookup fails rows) fun names => [.cmdLookupByNameResponse names]

def lookupByNameStream (fails : Failures) (rows : List ObjectRow) : Exchange Response :=
  respond (ObjectRepository.lookup fails rows) fun names =>
    names.map .cmdLookupByNameResponseStream

def lookupByType (fails : Failures) (rows : List ObjectRow) : Exchange Response :=
  respond (ObjectRepository.lookupById fails rows) fun names =>
    [.cmdNameLookupByTypeResponse names]

def lookupByTypeStream (fails : Failures) (rows : List ObjectRow) : Exchange Response :=
  respond (ObjectRepository.lookupById fails rows) fun names =>
    names.map .cmdNameLookupByTypeResponseStream

/-- `totalRows` counts the rows found. -/
def getObjectManyByName (fails : Failures) (rows : List ObjectRow) : Exchange Response :=
  respond (ObjectRepository.getManyMemByName fails rows) fun secMemList =>
    [.cmdGetManyByNameResponse (BitVec.ofNat 32 secMemList.length)
      (secMemList.map .msgOnSuccess)]

def getObjectManyByNameStream (fails : Failures) (rows : List ObjectRow) : Exchange Response :=
  respond (ObjectRepository.getManyMemByName fails rows) fun secMemList =>
    secMemList.map fun mem => .cmdGetManyByNameResponseStream (.msgOnSuccess mem)

def getObjectManyByNameExt (jdk : Jdk) (fails : Failures) (rows : List ObjectRow) :
    Exchange Response :=
  respond (ObjectRepository.getManyFullSecurities jdk fails rows) fun responseMessageList =>
    [.cmdGetManyByNameExtResponse (BitVec.ofNat 32 responseMessageList.length)
      responseMessageList]

def getObjectManyByNameExtStream (jdk : Jdk) (fails : Failures) (rows : List ObjectRow) :
    Exchange Response :=
  respond (ObjectRepository.getManySDBByNameStream jdk fails rows) fun responseMessageList =>
    responseMessageList.map .cmdGetManyByNameExtResponseStream

end ObjServiceImpl

theorem query_none {ρ α : Type} (recover : Throwable → Option α) (read : ρ → α) (rows : List ρ) :
    query Failures.none recover read rows = (rows.map read, none) := by
  have hread : ∀ i, readRows Failures.none recover read i rows = (rows.map read, none) := by
    induction rows with
    | nil => exact fun _ => rfl
    | cons row rows ih =>
        intro i
        simp only [readRows, readRow, Failures.none, List.map_cons] at ih ⊢
        rw [ih]
  simp only [query, opened, Failures.none, List.findSome?_cons, List.findSome?_nil] at hread ⊢
  rw [hread]
  rfl

/-! ## Multi-gets by name -/

/-- `GET_MANY_MEM_RECORDS`: the rows under one of the names, in some order. -/
def Store.GET_MANY_MEM_RECORDS (table : ObjectsTable) (names : List String)
    (rows : List ObjectRow) : Prop :=
  rows.Perm (table.rows.filter fun r => r.nameLower ∈ names)

/-- The item that belongs to a requested name. -/
def item (jdk : Jdk) (table : ObjectsTable) (securityName : String) : RequestResponse :=
  match lookup ObjectRow.nameLower table.rows (jdk.toLowerCase securityName) with
  | some r => .msgOnSuccess r.mem
  | none => .msgOnFailure

/-- One item for each requested name, in the order of the request. -/
structure Corresponds (jdk : Jdk) (table : ObjectsTable) (securityNames : List String)
    (rows : List ObjectRow) : Prop where
  getObjectManyByName : ObjServiceImpl.getObjectManyByName Failures.none rows =
    ⟨[.cmdGetManyByNameResponse (BitVec.ofNat 32 securityNames.length)
      (securityNames.map (item jdk table))], .onCompleted⟩
  getObjectManyByNameStream : ObjServiceImpl.getObjectManyByNameStream Failures.none rows =
    ⟨securityNames.map fun name => .cmdGetManyByNameResponseStream (item jdk table name),
      .onCompleted⟩

/-- The request cannot tell one order of the rows from another, and none is missing. -/
structure Matching (jdk : Jdk) (table : ObjectsTable) (securityNames : List String) : Prop where
  distinct : (securityNames.map jdk.toLowerCase).Nodup
  exist : ∀ name ∈ securityNames, ∃ r ∈ table.rows, r.nameLower = jdk.toLowerCase name
  same_mem : ∀ r ∈ table.rows, ∀ s ∈ table.rows,
    r.nameLower ∈ securityNames.map jdk.toLowerCase →
      s.nameLower ∈ securityNames.map jdk.toLowerCase → r.mem = s.mem

section Order

variable {jdk : Jdk} {table : ObjectsTable} {securityNames : List String}

/-- Answers by position are about the mems alone. -/
theorem corresponds_iff_map {rows : List ObjectRow} :
    Corresponds jdk table securityNames rows ↔
      rows.map (fun r => RequestResponse.msgOnSuccess r.mem) =
        securityNames.map (item jdk table) := by
  have hread : ObjectRepository.getManyMemByName Failures.none rows =
      .ok (rows.map ObjectRow.mem) := by
    rw [ObjectRepository.getManyMemByName, query_none]
    rfl
  constructor
  · intro h
    have hone := h.getObjectManyByName
    simp only [ObjServiceImpl.getObjectManyByName, hread, respond, Exchange.mk.injEq,
      List.cons.injEq, Response.cmdGetManyByNameResponse.injEq, List.map_map, and_true] at hone
    exact hone.2
  · intro h
    have hlength : rows.length = securityNames.length := by
      simpa using congrArg List.length h
    have hmap : (rows.map ObjectRow.mem).map RequestResponse.msgOnSuccess =
        securityNames.map (item jdk table) := by
      rw [List.map_map]
      exact h
    constructor
    · simp only [ObjServiceImpl.getObjectManyByName, hread, respond, hmap, List.length_map, hlength]
    · have hstream := congrArg (List.map Response.cmdGetManyByNameResponseStream) hmap
      rw [List.map_map, List.map_map] at hstream
      simp only [ObjServiceImpl.getObjectManyByNameStream, hread, respond, Exchange.mk.injEq,
        and_true]
      rw [List.map_map]
      rw [List.map_map] at hstream
      exact hstream

/-- The query finds each name once at most, and nothing else. -/
theorem found_subperm (table : ObjectsTable) (names : List String) :
    ((table.rows.filter fun r => r.nameLower ∈ names).map ObjectRow.nameLower).Subperm names := by
  apply List.subperm_of_subset
  · exact (List.filter_sublist.map ObjectRow.nameLower).nodup table.objectLowerName
  · intro n hn
    obtain ⟨r, hr, rfl⟩ := List.mem_map.mp hn
    exact of_decide_eq_true (List.mem_filter.mp hr).2

theorem Matching.length_found (h : Matching jdk table securityNames) :
    (table.rows.filter fun r => r.nameLower ∈ securityNames.map jdk.toLowerCase).length =
      securityNames.length := by
  have hle := (found_subperm table (securityNames.map jdk.toLowerCase)).length_le
  have hge : (securityNames.map jdk.toLowerCase).Subperm
      ((table.rows.filter fun r => r.nameLower ∈ securityNames.map jdk.toLowerCase).map
        ObjectRow.nameLower) := by
    apply List.subperm_of_subset h.distinct
    intro n hn
    obtain ⟨name, hname, rfl⟩ := List.mem_map.mp hn
    obtain ⟨r, hr, heq⟩ := h.exist name hname
    exact List.mem_map.mpr ⟨r, List.mem_filter.mpr ⟨hr, decide_eq_true (heq ▸ hn)⟩, heq⟩
  have hle' := hge.length_le
  simp only [List.length_map] at hle hle'
  exact Nat.le_antisymm hle hle'

/-- Every item is the one mem there is. -/
theorem Matching.map_eq (h : Matching jdk table securityNames) {rows : List ObjectRow}
    (hrows : Store.GET_MANY_MEM_RECORDS table (securityNames.map jdk.toLowerCase) rows) :
    rows.map (fun r => RequestResponse.msgOnSuccess r.mem) =
      securityNames.map (item jdk table) := by
  have hlength : rows.length = securityNames.length := hrows.length_eq.trans h.length_found
  cases securityNames with
  | nil => rw [List.length_eq_zero_iff.mp hlength, List.map_nil, List.map_nil]
  | cons first rest =>
      obtain ⟨r₀, hr₀, hfirst⟩ := h.exist first List.mem_cons_self
      have hmem₀ : r₀.nameLower ∈ (first :: rest).map jdk.toLowerCase :=
        hfirst ▸ List.mem_cons_self
      have hrow : ∀ y ∈ rows.map (fun r => RequestResponse.msgOnSuccess r.mem),
          y = .msgOnSuccess r₀.mem := by
        intro y hy
        obtain ⟨r, hr, rfl⟩ := List.mem_map.mp hy
        obtain ⟨hr, hlower⟩ := List.mem_filter.mp (hrows.mem_iff.mp hr)
        rw [h.same_mem r hr r₀ hr₀ (of_decide_eq_true hlower) hmem₀]
      have hitem : ∀ y ∈ (first :: rest).map (item jdk table), y = .msgOnSuccess r₀.mem := by
        intro y hy
        obtain ⟨name, hname, rfl⟩ := List.mem_map.mp hy
        obtain ⟨r, hr, hlower⟩ := h.exist name hname
        have hlookup := (lookup_eq_some table.objectLowerName).mpr ⟨hr, hlower⟩
        have hmem : r.nameLower ∈ (first :: rest).map jdk.toLowerCase :=
          hlower ▸ List.mem_map_of_mem hname
        rw [item, hlookup]
        exact congrArg _ (h.same_mem r hr r₀ hr₀ hmem hmem₀)
      rw [List.eq_replicate_of_mem hrow, List.eq_replicate_of_mem hitem, List.length_map,
        List.length_map, hlength]

/-- **The answers correspond to the request for every order the database may choose exactly
when** the names are distinct up to case and all exist, and their objects have one mem. -/
theorem corresponds_iff :
    (∀ rows, Store.GET_MANY_MEM_RECORDS table (securityNames.map jdk.toLowerCase) rows →
      Corresponds jdk table securityNames rows) ↔ Matching jdk table securityNames := by
  simp only [corresponds_iff_map]
  constructor
  · intro h
    have hlength := congrArg List.length (h _ (List.Perm.refl _))
    rw [List.length_map, List.length_map] at hlength
    have hperm := (found_subperm table (securityNames.map jdk.toLowerCase)).perm_of_length_le
      (by rw [List.length_map, List.length_map, hlength])
    refine ⟨?_, ?_, ?_⟩
    · apply hperm.nodup_iff.mp
      exact (List.filter_sublist.map ObjectRow.nameLower).nodup table.objectLowerName
    · intro name hname
      have hfound := hperm.mem_iff.mpr (List.mem_map_of_mem hname)
      obtain ⟨r, hr, heq⟩ := List.mem_map.mp hfound
      exact ⟨r, (List.mem_filter.mp hr).1, heq⟩
    · -- either row may come first, and the first item is the same
      intro r hr s hs hrname hsname
      have hfirst : ∀ t ∈ table.rows, t.nameLower ∈ securityNames.map jdk.toLowerCase →
          (securityNames.map (item jdk table)).head? = some (.msgOnSuccess t.mem) := by
        intro t ht htname
        have hmem : t ∈ table.rows.filter fun r =>
            r.nameLower ∈ securityNames.map jdk.toLowerCase :=
          List.mem_filter.mpr ⟨ht, decide_eq_true htname⟩
        have heq := h _ (List.perm_cons_erase hmem).symm
        rw [← heq]
        rfl
      have hsame := (hfirst r hr hrname).symm.trans (hfirst s hs hsname)
      exact RequestResponse.msgOnSuccess.inj (Option.some.inj hsame)
  · intro h rows hrows
    exact h.map_eq hrows

end Order

def smallRow (name : String) (mem : Bytes) : ObjectRow where
  name := name
  typeId := 1
  lastTransaction := 1
  timeUpdated := ⟨0⟩
  updateCount := 0
  dateCreated := 0
  dbIdUpdated := 0
  versionInfo := 0
  sdbDiskMem := []
  mem := mem
  nameLower := name

def twoObjects : ObjectsTable where
  rows := [smallRow "a" [1], smallRow "b" [2]]
  objectTypeidName := by unfold Foundation.KeyedRows.Unique; decide
  objectLowerName := by unfold Foundation.KeyedRows.Unique; decide
  objectName := by unfold Foundation.KeyedRows.Unique; decide

/-- Two names in the other order get each other's mem; a spelling of the first and a name
that does not exist get nothing, and the count says one. -/
theorem answers_out_of_place :
    (∃ rows, Store.GET_MANY_MEM_RECORDS twoObjects (["b", "a"].map Jdk.ascii.toLowerCase) rows ∧
      ObjServiceImpl.getObjectManyByName Failures.none rows =
        ⟨[.cmdGetManyByNameResponse 2 [.msgOnSuccess [1], .msgOnSuccess [2]]], .onCompleted⟩ ∧
      ["b", "a"].map (item Jdk.ascii twoObjects) = [.msgOnSuccess [2], .msgOnSuccess [1]] ∧
      ¬ Corresponds Jdk.ascii twoObjects ["b", "a"] rows) ∧
    ∃ rows, Store.GET_MANY_MEM_RECORDS twoObjects
        (["a", "A", "c"].map Jdk.ascii.toLowerCase) rows ∧
      ObjServiceImpl.getObjectManyByName Failures.none rows =
        ⟨[.cmdGetManyByNameResponse 1 [.msgOnSuccess [1]]], .onCompleted⟩ ∧
      ¬ Corresponds Jdk.ascii twoObjects ["a", "A", "c"] rows := by
  refine ⟨⟨twoObjects.rows, ?_, rfl, rfl, ?_⟩, [smallRow "a" [1]], ?_, rfl, ?_⟩
  · unfold Store.GET_MANY_MEM_RECORDS
    decide
  · intro h
    exact absurd h.getObjectManyByName (by decide)
  · unfold Store.GET_MANY_MEM_RECORDS
    decide
  · intro h
    exact absurd h.getObjectManyByName (by decide)

end AuroraSizing.MultiReads

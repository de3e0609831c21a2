import AuroraSizing.Objects.Tables
import Mathlib.Logic.Function.Basic

/-!
# The objects table as a case-insensitive map

`ObjMap` says what the table is for: at most one entry under each lower-cased
name. `MapStore` runs the four operations and the ends of transactions on it, and
`map_refinement` says that the repository on a `Database` answers and stores the
same. A database that aborts a transaction on error makes the rest of that
transaction fail; the map does the same.
-/

namespace AuroraSizing

open Foundation.KeyedRows

/-! ## The map -/

/-- An entry: a row without its lower-cased name and its filler. -/
structure MapEntry where
  name : String
  typeId : JInt
  lastTransaction : JLong
  timeUpdated : Timestamp
  updateCount : JLong
  dateCreated : JInt
  dbIdUpdated : JInt
  versionInfo : JInt
  mem : Bytes
deriving DecidableEq, Repr

/-- What an entry is addressed by, next to its place in the map. -/
def MapEntry.rowKey (e : MapEntry) : RowKey := ⟨e.name, e.updateCount, e.dbIdUpdated⟩

/-- What `getFullObject` makes of an entry. -/
def MapEntry.toDTO (jdk : Jdk) (e : MapEntry) : Cache.ObjectDTO where
  name := e.name
  typeId := e.typeId
  lastTransaction := e.lastTransaction
  updateCount := e.updateCount
  dateCreated := e.dateCreated
  dbIdUpdated := e.dbIdUpdated
  versionInfo := e.versionInfo
  timeUpdated := jdk.timestampText e.timeUpdated
  mem := e.mem

abbrev ObjMap := String → Option MapEntry

inductive MapOp where
  | insert (e : MapEntry)
  /-- The entry's name stays. -/
  | update (key : RowKey) (e : MapEntry)
  /-- The entry's type and mem stay. -/
  | rename (key : RowKey) (e : MapEntry)
  | delete (key : RowKey)
deriving DecidableEq, Repr

inductive MapResult where
  | done (m : ObjMap)
  /-- No entry has that exact name and those counters. -/
  | absent
  /-- Another entry has the new name. -/
  | taken

namespace ObjMap

/-- The entry a key addresses, by the exact name and both counters. -/
def addressed (lower : String → String) (m : ObjMap) (key : RowKey) : Option MapEntry :=
  (m (lower key.name)).filter fun e => e.rowKey = key

def apply (lower : String → String) (m : ObjMap) : MapOp → MapResult
  | .insert e =>
      if m (lower e.name) = none then .done (Function.update m (lower e.name) (some e)) else .taken
  | .update key e =>
      match m.addressed lower key with
      | some old =>
          .done (Function.update m (lower key.name) (some { e with name := old.name }))
      | none => .absent
  | .rename key e =>
      match m.addressed lower key with
      | some old =>
          if lower e.name = lower key.name ∨ m (lower e.name) = none then
            .done (Function.update (Function.update m (lower key.name) none) (lower e.name)
              (some { e with typeId := old.typeId, mem := old.mem }))
          else .taken
      | none => .absent
  | .delete key =>
      match m.addressed lower key with
      | some _ => .done (Function.update m (lower key.name) none)
      | none => .absent

end ObjMap

/-- The map under transactions: committed, as the open transaction sees it, and
whether that transaction is aborted. -/
structure MapStore where
  committed : ObjMap
  current : ObjMap
  aborted : Bool

namespace MapStore

def empty : MapStore := ⟨fun _ => none, fun _ => none, false⟩

/-- An operation answers whether it changed an entry; a taken name raises. -/
def execute (lower : String → String) (abortsOnError : Bool) (s : MapStore) (op : MapOp) :
    Except Throwable Bool × MapStore :=
  if s.aborted then (.error .sqlException, s)
  else
    match s.current.apply lower op with
    | .done m => (.ok true, { s with current := m })
    | .absent => (.ok false, s)
    | .taken => (.error .sqlException, { s with aborted := abortsOnError })

def commit (s : MapStore) : MapStore :=
  if s.aborted then ⟨s.committed, s.committed, false⟩ else ⟨s.current, s.current, false⟩

def rollback (s : MapStore) : MapStore := ⟨s.committed, s.committed, false⟩

end MapStore

/-! ## The calls as operations on the map -/

/-- The entry a request describes. -/
def Metadata.entry (md : Metadata) (nextTxnId : JLong) (time : Timestamp) (mem : Bytes) :
    MapEntry where
  name := md.securityName
  typeId := md.securityType
  lastTransaction := nextTxnId
  timeUpdated := time
  updateCount := md.updateCount
  dateCreated := md.dateCreated
  dbIdUpdated := md.dbIdUpdated
  versionInfo := md.versionInfo
  mem := mem

def Metadata.rowKey (md : Metadata) : RowKey := ⟨md.securityName, md.updateCount, md.dbIdUpdated⟩

variable {jdk : Jdk}

def Call.mapOp : Call jdk → MapOp
  | .insertRec cmd id time _ => .insert (cmd.metadata.entry id time cmd.mem)
  | .updateRec cmd id time _ =>
      .update cmd.oldMetadata.rowKey (cmd.newMetadata.entry id time cmd.mem)
  | .renameDataRecords cmd id now =>
      .rename cmd.oldMetadata.rowKey (cmd.newMetadata.entry id now [])
  | .deleteDataRecords cmd => .delete cmd.metadata.rowKey

namespace MapStore

def step (abortsOnError : Bool) (s : MapStore) :
    Step jdk → Option (Except Throwable Bool) × MapStore
  | .call c =>
      let (reply, s') := s.execute jdk.toLowerCase abortsOnError c.mapOp
      (some reply, s')
  | .commit => (none, s.commit)
  | .rollback => (none, s.rollback)

def run (abortsOnError : Bool) : MapStore → List (Step jdk) →
    List (Option (Except Throwable Bool)) × MapStore
  | s, [] => ([], s)
  | s, x :: steps =>
      let (reply, s) := s.step abortsOnError x
      let (replies, s) := run abortsOnError s steps
      (reply :: replies, s)

end MapStore

/-! ## The representation -/

def ObjectRow.entry (r : ObjectRow) : MapEntry where
  name := r.name
  typeId := r.typeId
  lastTransaction := r.lastTransaction
  timeUpdated := r.timeUpdated
  updateCount := r.updateCount
  dateCreated := r.dateCreated
  dbIdUpdated := r.dbIdUpdated
  versionInfo := r.versionInfo
  mem := r.mem

/-- The table is the map. -/
structure Represents (jdk : Jdk) (table : ObjectsTable) (m : ObjMap) : Prop where
  lower : LowerNames jdk table.rows
  entries : ∀ k, m k = (lookup ObjectRow.nameLower table.rows k).map ObjectRow.entry

/-- Under `LowerNames` one of the three indexes says it all. -/
theorem ObjectsTable.ofRows_eq {rows : List ObjectRow} (h : LowerNames jdk rows) :
    (Unique ObjectRow.nameLower rows →
      ∃ table, ObjectsTable.ofRows rows = some table ∧ table.rows = rows) ∧
    (¬ Unique ObjectRow.nameLower rows → ObjectsTable.ofRows rows = none) := by
  constructor
  · intro hunique
    have hname : Unique ObjectRow.name rows := by
      refine List.Nodup.map_on ?_ (List.Nodup.of_map _ hunique)
      intro r hr s hs heq
      exact hunique.eq hr hs (by rw [h r hr, h s hs, heq])
    have htype : Unique (fun r : ObjectRow => (r.typeId, r.nameLower)) rows := by
      refine List.Nodup.map_on ?_ (List.Nodup.of_map _ hunique)
      intro r hr s hs heq
      exact hunique.eq hr hs (Prod.mk.inj heq).2
    exact ⟨_, dif_pos ⟨htype, hunique, hname⟩, rfl⟩
  · intro hnot
    exact dif_neg fun hall => hnot hall.2.1

/-- A key addresses a row exactly when it addresses the entry of that row. -/
theorem addressed_cases {table : ObjectsTable} {m : ObjMap} (h : Represents jdk table m)
    (key : RowKey) :
    (∃ r ∈ table.rows, key.matches r = true ∧ r.nameLower = jdk.toLowerCase key.name ∧
      m.addressed jdk.toLowerCase key = some r.entry) ∨
    (m.addressed jdk.toLowerCase key = none ∧ ∀ r ∈ table.rows, key.matches r = false) := by
  by_cases hrow : ∃ r ∈ table.rows, key.matches r = true
  · rcases hrow with ⟨r, hr, hmatch⟩
    have hkey : r.rowKey = key := RowKey.matches_iff.mp hmatch
    have hlower : r.nameLower = jdk.toLowerCase key.name := by
      rw [h.lower r hr, ← hkey]
      rfl
    refine .inl ⟨r, hr, hmatch, hlower, ?_⟩
    have hlookup := (lookup_eq_some table.objectLowerName).mpr ⟨hr, hlower⟩
    have hentry : r.entry.rowKey = key := hkey
    rw [ObjMap.addressed, h.entries, hlookup, Option.map_some, Option.filter_some]
    simp [hentry]
  · have hnone : ∀ r ∈ table.rows, key.matches r = false := by
      intro r hr
      by_contra hmatch
      exact hrow ⟨r, hr, by simpa using hmatch⟩
    refine .inr ⟨?_, hnone⟩
    rw [ObjMap.addressed, Option.filter_eq_none_iff]
    intro e he hkey
    rw [h.entries] at he
    obtain ⟨r, hlookup, rfl⟩ := Option.map_eq_some_iff.mp he
    have hr := ((lookup_eq_some table.objectLowerName).mp hlookup).1
    have hmatch : key.matches r = true := RowKey.matches_iff.mpr (of_decide_eq_true hkey)
    rw [hnone r hr] at hmatch
    cases hmatch

/-- Two rows a key addresses are one. -/
theorem matches_nameLower {table : ObjectsTable} {m : ObjMap} (h : Represents jdk table m)
    {key : RowKey} {r s : ObjectRow} (hr : r ∈ table.rows) (hs : s ∈ table.rows)
    (hrkey : key.matches r = true) (hskey : key.matches s = true) :
    s.nameLower = r.nameLower := by
  have hname : s.rowKey = r.rowKey :=
    (RowKey.matches_iff.mp hskey).trans (RowKey.matches_iff.mp hrkey).symm
  rw [h.lower s hs, h.lower r hr, show s.name = r.name from congrArg RowKey.name hname]

/-! ## One statement against one operation -/

/-- The statement does to the table what the operation does to the map. -/
def Agrees (jdk : Jdk) (table : ObjectsTable) (m : ObjMap) (s : Stmt) : MapResult → Prop
  | .done m' => ∃ table', ObjectsTable.ofRows (s.run table.rows) = some table' ∧
      s.affected table.rows = 1 ∧ Represents jdk table' m'
  | .absent => ∃ table', ObjectsTable.ofRows (s.run table.rows) = some table' ∧
      s.affected table.rows = 0 ∧ Represents jdk table' m
  | .taken => ObjectsTable.ofRows (s.run table.rows) = none

theorem agrees_insert {table : ObjectsTable} {m : ObjMap} (h : Represents jdk table m)
    {row : ObjectRow} (hrow : row.nameLower = jdk.toLowerCase row.name) :
    Agrees jdk table m (.insertRecords row) (m.apply jdk.toLowerCase (.insert row.entry)) := by
  have hlower : LowerNames jdk (table.rows ++ [row]) := by
    intro r hr
    rcases List.mem_append.mp hr with hr | hr
    · exact h.lower r hr
    · obtain rfl := List.mem_singleton.mp hr
      exact hrow
  obtain ⟨hsome, hnone⟩ := ObjectsTable.ofRows_eq hlower
  have hkey : m (jdk.toLowerCase row.name) = none ↔
      lookup ObjectRow.nameLower table.rows row.nameLower = none := by
    rw [h.entries, Option.map_eq_none_iff, hrow]
  have hname : row.entry.name = row.name := rfl
  rw [ObjMap.apply, hname]
  -- the key is free exactly when the three indexes accept the row
  by_cases hfree : m (jdk.toLowerCase row.name) = none
  · rw [if_pos hfree]
    have hlookup := hkey.mp hfree
    obtain ⟨table', htable', hrows'⟩ :=
      hsome (unique_concat.mpr ⟨table.objectLowerName, hlookup⟩)
    refine ⟨table', htable', rfl, hrows' ▸ hlower, ?_⟩
    intro k
    rw [hrows', lookup_concat hlookup, Function.update_apply, ← hrow, h.entries]
    split <;> rfl
  · rw [if_neg hfree]
    exact hnone fun hunique => hfree (hkey.mpr (unique_concat.mp hunique).2)

section keyed

variable {table : ObjectsTable} {m : ObjMap} {s : Stmt} {key : RowKey}

theorem agrees_absent (h : Represents jdk table m) (hkey : s.key? = some key)
    (hrun : s.run table.rows = Foundation.KeyedRows.rewrite key.matches s.rewrite table.rows)
    (hnone : ∀ r ∈ table.rows, key.matches r = false) : Agrees jdk table m s .absent := by
  rw [rewrite_of_none hnone] at hrun
  obtain ⟨table', htable', hrows'⟩ := (ObjectsTable.ofRows_eq h.lower).1 table.objectLowerName
  refine ⟨table', by rw [hrun, htable'], ?_, hrows' ▸ h.lower, by rw [hrows']; exact h.entries⟩
  have hfilter : table.rows.filter key.matches = [] :=
    List.filter_eq_nil_iff.mpr fun r hr => by simp [hnone r hr]
  simp only [Stmt.affected, hkey, hfilter, List.length_nil]

/-- The addressed row replaced: what it may be called is what is free, or its own. -/
theorem agrees_replace (h : Represents jdk table m) (hkey : s.key? = some key)
    (hrun : s.run table.rows = Foundation.KeyedRows.rewrite key.matches s.rewrite table.rows)
    {r r' : ObjectRow} (hr : r ∈ table.rows) (hmatch : key.matches r = true)
    (hr' : s.rewrite r = some r') (hlower' : r'.nameLower = jdk.toLowerCase r'.name) :
    Agrees jdk table m s
      (if r'.nameLower = r.nameLower ∨ m r'.nameLower = none then
        .done (Function.update (Function.update m r.nameLower none) r'.nameLower (some r'.entry))
      else .taken) := by
  obtain ⟨before, after, hrows, hrewrite, hfilter⟩ :=
    rewrite_of_one (f := s.rewrite) table.objectLowerName hr hmatch
      fun t ht hsel => matches_nameLower h hr ht hmatch hsel
  have hunique := table.objectLowerName
  rw [hrows] at hunique
  have hnew : s.run table.rows = before ++ r' :: after := by
    rw [hrun, hrewrite, hr']
    simp
  have haffected : s.affected table.rows = 1 := by
    simp only [Stmt.affected, hkey, hfilter, List.length_singleton]
  have hlower : LowerNames jdk (before ++ r' :: after) := by
    intro t ht
    rcases mem_middle.mp ht with rfl | ht
    · exact hlower'
    · exact h.lower t (hrows ▸ mem_middle.mpr (.inr ht))
  obtain ⟨hsome, hnone⟩ := ObjectsTable.ofRows_eq hlower
  have hentries := h.entries
  rw [hrows] at hentries
  have hfree : m r'.nameLower = none ↔
      lookup ObjectRow.nameLower (before ++ r :: after) r'.nameLower = none := by
    rw [hentries, Option.map_eq_none_iff]
  by_cases hname : r'.nameLower = r.nameLower ∨ m r'.nameLower = none
  · rw [if_pos hname]
    have hunique' := (unique_replace hunique).mpr (hname.imp_right hfree.mp)
    obtain ⟨table', htable', hrows'⟩ := hsome hunique'
    refine ⟨table', by rw [hnew, htable'], haffected, hrows' ▸ hlower, ?_⟩
    intro k
    rw [hrows', lookup_replace hunique hunique', Function.update_apply, Function.update_apply,
      hentries]
    split
    · rfl
    · split <;> rfl
  · rw [if_neg hname]
    show ObjectsTable.ofRows (s.run table.rows) = none
    rw [hnew]
    exact hnone fun hunique' => hname (((unique_replace hunique).mp hunique').imp_right hfree.mpr)

theorem agrees_erase (h : Represents jdk table m) (hkey : s.key? = some key)
    (hrun : s.run table.rows = Foundation.KeyedRows.rewrite key.matches s.rewrite table.rows)
    {r : ObjectRow} (hr : r ∈ table.rows) (hmatch : key.matches r = true)
    (herase : s.rewrite r = none) :
    Agrees jdk table m s (.done (Function.update m r.nameLower none)) := by
  obtain ⟨before, after, hrows, hrewrite, hfilter⟩ :=
    rewrite_of_one (f := s.rewrite) table.objectLowerName hr hmatch
      fun t ht hsel => matches_nameLower h hr ht hmatch hsel
  have hunique := table.objectLowerName
  rw [hrows] at hunique
  have hnew : s.run table.rows = before ++ after := by
    rw [hrun, hrewrite, herase]
    simp
  have hlower : LowerNames jdk (before ++ after) := by
    intro t ht
    exact h.lower t (hrows ▸ mem_middle.mpr (.inr ht))
  obtain ⟨table', htable', hrows'⟩ :=
    (ObjectsTable.ofRows_eq hlower).1 (unique_middle.mp hunique).2
  refine ⟨table', by rw [hnew, htable'], ?_, hrows' ▸ hlower, ?_⟩
  · simp only [Stmt.affected, hkey, hfilter, List.length_singleton]
  · intro k
    rw [hrows', lookup_erase hunique, Function.update_apply, h.entries, hrows]
    split <;> rfl

end keyed

theorem agrees_update {table : ObjectsTable} {m : ObjMap} (h : Represents jdk table m)
    (cmd : CmdUpdate) (id : JLong) (time : Timestamp) :
    Agrees jdk table m (ObjectRepository.bindUpdateRec cmd id time)
      (m.apply jdk.toLowerCase
        (.update cmd.oldMetadata.rowKey (cmd.newMetadata.entry id time cmd.mem))) := by
  rcases addressed_cases h cmd.oldMetadata.rowKey with
    ⟨r, hr, hmatch, hlower, haddr⟩ | ⟨haddr, hnone⟩
  -- an update keeps the name, so its key stays its own
  · have hreplace := agrees_replace h (s := ObjectRepository.bindUpdateRec cmd id time) rfl rfl
      hr hmatch rfl (h.lower r hr)
    rw [if_pos (.inl rfl)] at hreplace
    have hidem : ∀ e : MapEntry, Function.update (Function.update m r.nameLower none) r.nameLower
        (some e) = Function.update m r.nameLower (some e) := fun e => Function.update_idem _ _ _
    simp only [ObjMap.apply, haddr, ← hlower]
    rw [← hidem]
    exact hreplace
  · simp only [ObjMap.apply, haddr]
    exact agrees_absent h rfl rfl hnone

theorem agrees_rename {table : ObjectsTable} {m : ObjMap} (h : Represents jdk table m)
    (cmd : CmdRename) (id : JLong) (now : Timestamp) :
    Agrees jdk table m (ObjectRepository.bindRenameDataRecords jdk cmd id now)
      (m.apply jdk.toLowerCase
        (.rename cmd.oldMetadata.rowKey (cmd.newMetadata.entry id now []))) := by
  rcases addressed_cases h cmd.oldMetadata.rowKey with
    ⟨r, hr, hmatch, hlower, haddr⟩ | ⟨haddr, hnone⟩
  -- a rename writes name and lower-cased name together
  · have hreplace := agrees_replace h (s := ObjectRepository.bindRenameDataRecords jdk cmd id now)
      rfl rfl hr hmatch rfl rfl
    simp only [ObjMap.apply, haddr, ← hlower]
    exact hreplace
  · simp only [ObjMap.apply, haddr]
    exact agrees_absent h rfl rfl hnone

theorem agrees_delete {table : ObjectsTable} {m : ObjMap} (h : Represents jdk table m)
    (cmd : CmdDelete) :
    Agrees jdk table m (ObjectRepository.bindDeleteDataRecords cmd)
      (m.apply jdk.toLowerCase (.delete cmd.metadata.rowKey)) := by
  rcases addressed_cases h cmd.metadata.rowKey with
    ⟨r, hr, hmatch, hlower, haddr⟩ | ⟨haddr, hnone⟩
  · simp only [ObjMap.apply, haddr, ← hlower]
    exact agrees_erase h rfl rfl hr hmatch rfl
  · simp only [ObjMap.apply, haddr]
    exact agrees_absent h rfl rfl hnone

/-- Every call does to the table what its operation does to the map: inserts and
renames write the lower-cased name next to the name, updates write neither. -/
theorem agrees_call {table : ObjectsTable} {m : ObjMap} (h : Represents jdk table m)
    (c : Call jdk) : Agrees jdk table m c.stmt (m.apply jdk.toLowerCase c.mapOp) := by
  cases c with
  | insertRec cmd id time valid => exact agrees_insert h rfl
  | updateRec cmd id time valid => exact agrees_update h cmd id time
  | renameDataRecords cmd id now => exact agrees_rename h cmd id now
  | deleteDataRecords cmd => exact agrees_delete h cmd

/-! ## Whole runs -/

/-- The database is the map store. -/
structure Simulates (jdk : Jdk) (db : Database) (ms : MapStore) : Prop where
  committed : Represents jdk db.committed ms.committed
  current : Represents jdk db.current ms.current
  aborted : db.aborted = ms.aborted

theorem represents_empty (jdk : Jdk) : Represents jdk .empty fun _ => none :=
  ⟨fun _ hr => absurd hr List.not_mem_nil, fun _ => rfl⟩

theorem simulates_empty (jdk : Jdk) : Simulates jdk .empty .empty :=
  ⟨represents_empty jdk, represents_empty jdk, rfl⟩

theorem simulates_execute {db : Database} {ms : MapStore} (h : Simulates jdk db ms)
    (abortsOnError : Bool) (c : Call jdk) :
    let (o, db') := db.execute abortsOnError c.stmt
    let (reply, ms') := ms.execute jdk.toLowerCase abortsOnError c.mapOp
    (c.perform o).result = reply ∧ Simulates jdk db' ms' := by
  have hagrees := agrees_call h.current c
  unfold Database.execute MapStore.execute
  rw [h.aborted]
  cases habort : ms.aborted with
  | true =>
      refine ⟨?_, h⟩
      rw [c.perform_spec rfl, Call.executeOne_result]
      rfl
  | false =>
      cases hresult : ms.current.apply jdk.toLowerCase c.mapOp with
      | done m' =>
          rw [hresult] at hagrees
          rcases hagrees with ⟨table', htable', haffected, hrep⟩
          simp only [htable', Bool.false_eq_true, if_false]
          refine ⟨?_, h.committed, hrep, rfl⟩
          rw [c.perform_spec rfl, Call.executeOne_result, haffected]
          rfl
      | absent =>
          rw [hresult] at hagrees
          rcases hagrees with ⟨table', htable', haffected, hrep⟩
          simp only [htable', Bool.false_eq_true, if_false]
          refine ⟨?_, h.committed, hrep, habort.symm⟩
          rw [c.perform_spec rfl, Call.executeOne_result, haffected]
          rfl
      | taken =>
          rw [hresult] at hagrees
          have hnone : ObjectsTable.ofRows (c.stmt.run db.current.rows) = none := hagrees
          simp only [hnone, Bool.false_eq_true, if_false]
          refine ⟨?_, h.committed, h.current, rfl⟩
          rw [c.perform_spec rfl, Call.executeOne_result]
          rfl

theorem simulates_step {db : Database} {ms : MapStore} (h : Simulates jdk db ms)
    (abortsOnError : Bool) (s : Step jdk) :
    (db.step abortsOnError s).1 = (ms.step abortsOnError s).1 ∧
      Simulates jdk (db.step abortsOnError s).2 (ms.step abortsOnError s).2 := by
  cases s with
  | call c =>
      obtain ⟨hreply, hsim⟩ := simulates_execute h abortsOnError c
      exact ⟨congrArg some hreply, hsim⟩
  | commit =>
      refine ⟨rfl, ?_⟩
      show Simulates jdk db.commit ms.commit
      unfold Database.commit MapStore.commit
      rw [h.aborted]
      cases ms.aborted with
      | true => exact ⟨h.committed, h.committed, rfl⟩
      | false => exact ⟨h.current, h.current, rfl⟩
  | rollback => exact ⟨rfl, h.committed, h.committed, rfl⟩

theorem simulates_run {db : Database} {ms : MapStore} (h : Simulates jdk db ms)
    (abortsOnError : Bool) (steps : List (Step jdk)) :
    (db.run abortsOnError steps).1 = (ms.run abortsOnError steps).1 ∧
      Simulates jdk (db.run abortsOnError steps).2 (ms.run abortsOnError steps).2 := by
  induction steps generalizing db ms with
  | nil => exact ⟨rfl, h⟩
  | cons s steps ih =>
      obtain ⟨hreply, hsim⟩ := simulates_step h abortsOnError s
      obtain ⟨hreplies, hrun⟩ := ih hsim
      exact ⟨List.cons_eq_cons.mpr ⟨hreply, hreplies⟩, hrun⟩

/-- What the table shows of the map: lower-cased names, and the entry of the key for
every spelling of it. -/
structure Shows (jdk : Jdk) (table : ObjectsTable) (m : ObjMap) : Prop where
  lower : LowerNames jdk table.rows
  getFullObject : ∀ secKey, ObjectRepository.getFullObject jdk table secKey =
    (m (jdk.toLowerCase secKey)).map (MapEntry.toDTO jdk)

theorem Represents.shows {table : ObjectsTable} {m : ObjMap} (h : Represents jdk table m) :
    Shows jdk table m := by
  refine ⟨h.lower, ?_⟩
  intro secKey
  rw [h.entries, Option.map_map]
  rfl

/-- **The repository is the map.** From the empty table every run of the write
methods, commits and rollbacks is answered as the map store answers it, and shows
its entries, whether the database aborts a transaction on error or not. -/
theorem map_refinement (jdk : Jdk) (abortsOnError : Bool) (steps : List (Step jdk)) :
    (Database.empty.run abortsOnError steps).1 = (MapStore.empty.run abortsOnError steps).1 ∧
      Shows jdk (Database.empty.run abortsOnError steps).2.committed
        (MapStore.empty.run abortsOnError steps).2.committed ∧
      Shows jdk (Database.empty.run abortsOnError steps).2.current
        (MapStore.empty.run abortsOnError steps).2.current := by
  obtain ⟨hreplies, hsim⟩ := simulates_run (simulates_empty jdk) abortsOnError steps
  exact ⟨hreplies, hsim.committed.shows, hsim.current.shows⟩

/-! ## After an error in a transaction -/

def insertStep (name : String) : Step Jdk.ascii :=
  .call (.insertRec { metadata := { securityName := name, timeUpdate := "1970-01-01 00:00:00" } }
    7 ⟨0⟩ rfl)

/-- On PostgreSQL the insert after a refused one is refused too, with its key free;
the map without aborted transactions would take it. -/
theorem insert_after_error_refused :
    (Database.empty.run true [insertStep "a", insertStep "A", insertStep "b"]).1 =
        [some (.ok true), some (.error .sqlException), some (.error .sqlException)] ∧
      (MapStore.empty.run false [insertStep "a", insertStep "A", insertStep "b"]).1 =
        [some (.ok true), some (.error .sqlException), some (.ok true)] := by
  decide

end AuroraSizing

import AuroraSizing.Objects.MapRefinement
import AuroraSizing.Transaction.Closing
import AuroraSizing.Transaction.CommitOrder
import Mathlib.Data.Set.List

/-!
# Concurrent streams as operations on one map

Whatever a stream executes on `objects`, one of the four write methods made: inserts
and renames store the lower-cased name beside the name. So the log of the commits is
a log of operations on the map that the table represents, and the committed table
shows that map after them.
-/

namespace AuroraSizing

open Foundation.KeyedRows

variable {jdk : Jdk}

/-! ## Operations one after another -/

/-- The map after operations that each find their entry and a free name. -/
def ObjMap.applyAll (lower : String → String) (m : ObjMap) (ops : List MapOp) : Option ObjMap :=
  ops.foldlM (fun m op =>
    match m.apply lower op with
    | .done m' => some m'
    | .absent | .taken => none) m

/-- The map that a table is. -/
def ObjectsTable.toMap (table : ObjectsTable) : ObjMap :=
  fun k => (lookup ObjectRow.nameLower table.rows k).map ObjectRow.entry

theorem represents_toMap {table : ObjectsTable} (h : LowerNames jdk table.rows) :
    Represents jdk table table.toMap := ⟨h, fun _ => rfl⟩

theorem represents_execute {table table' : ObjectsTable} {m : ObjMap} (h : Represents jdk table m)
    (c : Call jdk) (hexec : table.execute c.stmt = some table') :
    ∃ m', m.apply jdk.toLowerCase c.mapOp = .done m' ∧ Represents jdk table' m' := by
  have hagrees := agrees_call h c
  unfold ObjectsTable.execute at hexec
  split at hexec
  case isFalse => cases hexec
  case isTrue hone =>
    cases hresult : m.apply jdk.toLowerCase c.mapOp with
    | done m' =>
        rw [hresult] at hagrees
        obtain ⟨table'', htable, -, hrep⟩ := hagrees
        obtain rfl := Option.some.inj (htable.symm.trans hexec)
        exact ⟨m', rfl, hrep⟩
    | absent =>
        rw [hresult] at hagrees
        obtain ⟨-, -, hzero, -⟩ := hagrees
        rw [hzero] at hone
        cases hone
    | taken =>
        rw [hresult] at hagrees
        cases hagrees.symm.trans hexec

theorem represents_executeAll {table table' : ObjectsTable} {m : ObjMap} {calls : List (Call jdk)}
    (h : Represents jdk table m) (hexec : table.executeAll (calls.map Call.stmt) = some table') :
    ∃ m', m.applyAll jdk.toLowerCase (calls.map Call.mapOp) = some m' ∧
      Represents jdk table' m' := by
  induction calls generalizing table m with
  | nil =>
      obtain rfl := Option.some.inj hexec
      exact ⟨m, rfl, h⟩
  | cons c calls ih =>
      rw [List.map_cons, ObjectsTable.executeAll, List.foldlM_cons] at hexec
      obtain ⟨next, hnext, hrest⟩ := Option.bind_eq_some_iff.mp hexec
      obtain ⟨m₁, hm₁, hrep⟩ := represents_execute h c hnext
      obtain ⟨m', hm', hrep'⟩ := ih hrep hrest
      refine ⟨m', ?_, hrep'⟩
      rw [List.map_cons, ObjMap.applyAll, List.foldlM_cons, hm₁]
      exact hm'

/-- The order of the rows does not matter to the map. -/
theorem Represents.perm {table : ObjectsTable} {m : ObjMap} (h : Represents jdk table m)
    {rows : List ObjectRow} (hperm : table.rows.Perm rows) :
    ∃ table', table'.rows = rows ∧ Represents jdk table' m := by
  have hunique : Unique ObjectRow.nameLower rows :=
    ((hperm.map _).nodup_iff).mp table.objectLowerName
  have hlower : LowerNames jdk rows := fun r hr => h.lower r (hperm.mem_iff.mpr hr)
  obtain ⟨table', -, hrows⟩ := (ObjectsTable.ofRows_eq hlower).1 hunique
  refine ⟨table', hrows, hrows ▸ hlower, ?_⟩
  intro k
  rw [h.entries, hrows]
  congr 1
  apply Option.ext
  intro r
  rw [lookup_eq_some table.objectLowerName, lookup_eq_some hunique, hperm.mem_iff]

namespace Transaction

open Foundation.RowLocks Foundation.System

/-! ## What streams execute -/

theorem Observer.mem_callback {obs : Observer} {e : Event} {s : Stmt} {rows : ℕ} {raised : Bool}
    (hmem : .execute s rows raised ∈ (obs.callback jdk e).2.trace) :
    ∃ r id k now, s ∈ messageStmts jdk r id k now := by
  have hend := fun (obs : Observer) (o : Outcomes) =>
    execute_notMem_end jdk obs o s rows raised
  have hserve : ∀ (r : CmdTransactionRequest) (id : JLong) (k : ℕ) (o : Outcomes),
      .execute s rows raised ∈ (serve jdk r id k o).trace →
        ∃ r id k now, s ∈ messageStmts jdk r id k now := by
    intro r id k o hmem
    rcases mem_serve_trace hmem with ⟨ok, heq⟩ | ⟨t, ht, n, b, heq⟩
    · cases heq
    · cases heq
      exact ⟨r, id, k, o.now, ht⟩
  rcases e with ⟨cb, o⟩
  cases cb with
  | onCompleted => exact absurd hmem (hend obs o).2
  | onError => exact absurd hmem (hend obs o).1
  | onNext r =>
      cases hread : (obs.readTxnId o).result with
      | error e =>
          exfalso
          rw [Observer.callback, onNext, hread] at hmem
          cases e with
          | sqlException => exact (hend obs o).1 hmem
          | _ => cases hmem
      | ok id =>
          rw [Observer.callback, (onNext_spec jdk obs r o hread).2] at hmem
          cases hverdict : verdict jdk r o with
          | served =>
              rw [hverdict] at hmem
              exact hserve r id _ o hmem
          | escaped =>
              rw [hverdict] at hmem
              exact hserve r id _ o hmem
          | failed =>
              rw [hverdict] at hmem
              rcases List.mem_append.mp hmem with hmem | hmem
              · exact hserve r id _ o hmem
              · exact absurd hmem (hend _ o).1

/-- A statement of one of the write methods, or a log row. -/
def OfCall (jdk : Jdk) (s : Stmt) : Prop :=
  match s with
  | .insertTransHeader _ | .insertTransParts _ => True
  | _ => ∃ c : Call jdk, c.stmt = s

theorem ofCall_stmt (c : Call jdk) : OfCall jdk c.stmt := by
  cases c with
  | insertRec cmd id time valid => exact ⟨.insertRec cmd id time valid, rfl⟩
  | updateRec cmd id time valid => exact ⟨.updateRec cmd id time valid, rfl⟩
  | renameDataRecords cmd id now => exact ⟨.renameDataRecords cmd id now, rfl⟩
  | deleteDataRecords cmd => exact ⟨.deleteDataRecords cmd, rfl⟩

theorem ofCall_of_mem {r : CmdTransactionRequest} {id : JLong} {k : ℕ} {now : Timestamp} {s : Stmt}
    (h : s ∈ messageStmts jdk r id k now) : OfCall jdk s := by
  rw [messageStmts, List.mem_append, Option.mem_toList, Option.mem_toList] at h
  rcases h with hop | hlog
  · unfold opStmt? at hop
    cases hr : transType r with
    | insert =>
        rw [hr] at hop
        obtain ⟨time, hvalid, rfl⟩ := Option.map_eq_some_iff.mp hop
        exact ofCall_stmt (.insertRec r.getInsert id time hvalid)
    | update =>
        rw [hr] at hop
        obtain ⟨time, hvalid, rfl⟩ := Option.map_eq_some_iff.mp hop
        exact ofCall_stmt (.updateRec r.getUpdate id time hvalid)
    | rename =>
        rw [hr] at hop
        obtain rfl := Option.some.inj hop
        exact ofCall_stmt (.renameDataRecords r.getRename id now)
    | delete =>
        rw [hr] at hop
        obtain rfl := Option.some.inj hop
        exact ofCall_stmt (.deleteDataRecords r.getDelete)
    | header | trailer | unrecognized =>
        rw [hr] at hop
        cases hop
  · unfold logStmt? at hlog
    split at hlog
    · obtain rfl := Option.some.inj hlog
      trivial
    · cases hlog
    · obtain rfl := Option.some.inj hlog
      trivial

/-! ## The log as calls -/

/-- The calls the lines have still to make, and the logged statements. -/
structure Recorded.Calls (jdk : Jdk) (s : Recorded) : Prop where
  lines : ∀ stream l stmt rows raised, s.server.lines stream = some l →
    .execute stmt rows raised ∈ l.calls → OfCall jdk stmt
  committed : ∀ stmts ∈ s.log.committed, ∀ stmt ∈ stmts, ∃ c : Call jdk, c.stmt = stmt
  opened : ∀ connection, ∀ stmt ∈ s.log.opened connection, ∃ c : Call jdk, c.stmt = stmt

namespace Recorded

theorem calls_start (rows : List ObjectRow) : Calls jdk (start rows) where
  lines := by
    intro stream l stmt rows raised hl
    cases hl
  committed := by
    intro stmts h
    cases h
  opened := by
    intro connection stmt h
    cases h

theorem Calls.setLine {s : Recorded} (h : s.Calls jdk) (stream : ℕ) {l : Line}
    (hcalls : ∀ stmt rows raised, .execute stmt rows raised ∈ l.calls → OfCall jdk stmt) :
    Calls jdk ⟨s.server.setLine stream l, s.log⟩ where
  lines := by
    intro stream' l' stmt rows raised hl
    rcases Server.setLine_cases hl with ⟨rfl, rfl⟩ | hl
    · exact hcalls stmt rows raised
    · exact h.lines stream' l' stmt rows raised hl
  committed := h.committed
  opened := h.opened

/-- What a call adds to the log is the statement it executed. -/
theorem Calls.record {s : Recorded} (h : s.Calls jdk) (connection : ℕ) {a : Action}
    (ha : ∀ stmt rows raised, a = .execute stmt rows raised → OfCall jdk stmt) :
    Calls jdk ⟨s.server, s.log.record connection a⟩ := by
  have hend : ∀ connection', ∀ stmt ∈ Function.update s.log.opened connection [] connection',
      ∃ c : Call jdk, c.stmt = stmt := by
    intro connection' stmt hstmt
    by_cases hc : connection' = connection
    · subst hc
      rw [Function.update_self] at hstmt
      cases hstmt
    · rw [Function.update_of_ne hc] at hstmt
      exact h.opened connection' stmt hstmt
  have hpush : ∀ stmt : Stmt, (∃ c : Call jdk, c.stmt = stmt) →
      Calls jdk ⟨s.server, { s.log with
        opened := Function.update s.log.opened connection
          (s.log.opened connection ++ [stmt]) }⟩ := by
    intro stmt hcall
    refine ⟨h.lines, h.committed, ?_⟩
    intro connection' stmt' hstmt
    by_cases hc : connection' = connection
    · subst hc
      simp only [Function.update_self, List.mem_append, List.mem_singleton] at hstmt
      rcases hstmt with hin | rfl
      · exact h.opened connection' stmt' hin
      · exact hcall
    · simp only [Function.update_of_ne hc] at hstmt
      exact h.opened connection' stmt' hstmt
  cases a with
  | execute stmt rows raised =>
      have hcall := ha stmt rows raised rfl
      cases stmt with
      | insertTransHeader | insertTransParts => exact h
      | insertRecords | updateRecords | renameRecords | deleteRecords =>
          simp only [CommitLog.record]
          split
          · exact h
          · exact hpush _ hcall
  | commit ok =>
      cases ok with
      | false => exact h
      | true =>
          refine ⟨h.lines, ?_, hend⟩
          intro stmts hstmts
          rcases List.mem_append.mp hstmts with hin | hin
          · exact h.committed stmts hin
          · obtain rfl := List.mem_singleton.mp hin
            exact h.opened connection
  | rollback ok =>
      cases ok with
      | false => exact h
      | true => exact ⟨h.lines, h.committed, hend⟩
  | close ok => exact h
  | respond m => exact h

theorem calls_step {s s' : Recorded} {m : Move} (h : s.Calls jdk) (hs : step jdk s m = some s') :
    s'.Calls jdk := by
  cases step_cases hs with
  | accept =>
      apply h.setLine
      intro stmt rows raised hmem
      cases hmem
  | deliver =>
      apply h.setLine
      intro stmt rows raised hmem
      obtain ⟨r, id, k, now, hstmt⟩ := Observer.mem_callback hmem
      exact ofCall_of_mem hstmt
  | @scan stream l _ _ _ _ _ hl =>
      exact h.setLine stream fun stmt rows raised => h.lines stream l stmt rows raised hl
  | @call stream l a calls objects hl hcalls =>
      have hafter := h.record l.connection fun stmt rows raised ha =>
        h.lines stream l stmt rows raised hl (hcalls ▸ ha ▸ List.mem_cons_self)
      refine Calls.setLine (s := ⟨{ s.server with objects := objects },
        s.log.record l.connection a⟩) ⟨h.lines, hafter.committed, hafter.opened⟩ stream ?_
      intro stmt rows raised hmem
      exact h.lines stream l stmt rows raised hl (hcalls ▸ List.mem_cons_of_mem a hmem)
  | @finish stream l e hl =>
      exact h.setLine stream fun stmt rows raised => h.lines stream l stmt rows raised hl

/-- The log is a log of calls. -/
theorem Calls.log {s : Recorded} (h : s.Calls jdk) :
    ∃ (committed : List (List (Call jdk))) (opened : ℕ → List (Call jdk)),
      s.log.committed = committed.map (List.map Call.stmt) ∧
      ∀ connection, s.log.opened connection = (opened connection).map Call.stmt := by
  have hopened : ∀ connection, s.log.opened connection ∈
      Set.range (List.map fun c : Call jdk => c.stmt) := by
    intro connection
    rw [Set.range_list_map]
    exact h.opened connection
  choose opened heq using hopened
  have hcommitted : s.log.committed ∈
      Set.range (List.map (List.map fun c : Call jdk => c.stmt)) := by
    rw [Set.range_list_map, Set.range_list_map]
    exact h.committed
  obtain ⟨committed, hcommitted⟩ := hcommitted
  exact ⟨committed, opened, hcommitted.symm, fun connection => (heq connection).symm⟩

end Recorded

/-- **Concurrent streams work on one map**: after any interleaving of streams that the unique
indexes let through, the committed rows show the map that the committed calls of the write
methods make of the initial table's, one after another in the order of the commits and each
finding what it changes; a connection sees that map with its own open calls on top. -/
theorem streams_are_map {table₀ : ObjectsTable} {moves : List Move} {s : Server}
    (hlower : LowerNames jdk table₀.rows)
    (hrun : run (Server.step jdk) (Server.start table₀.rows) moves = some s)
    (hindex : Along (Server.step jdk) IndexesHold (Server.start table₀.rows) moves) :
    ∃ log, run (Recorded.step jdk) (Recorded.start table₀.rows) moves = some ⟨s, log⟩ ∧
      ∃ (committed : List (List (Call jdk))) (opened : ℕ → List (Call jdk)),
        log.committed = committed.map (List.map Call.stmt) ∧
        (∀ connection, log.opened connection = (opened connection).map Call.stmt) ∧
        ∃ m, table₀.toMap.applyAll jdk.toLowerCase (committed.flatten.map Call.mapOp) = some m ∧
          (∃ table, table.rows = s.committed ∧ Shows jdk table m) ∧
          ∀ connection, ∃ m', m.applyAll jdk.toLowerCase ((opened connection).map Call.mapOp) =
              some m' ∧
            ∃ table, table.rows = s.seen connection ∧ Shows jdk table m' := by
  obtain ⟨log, hlog, hinv⟩ := recorded_run hrun hindex
  have hcalls : Recorded.Calls jdk ⟨s, log⟩ :=
    run_preserves (fun _ _ _ => Recorded.calls_step) (Recorded.calls_start table₀.rows) hlog
  obtain ⟨table, hall, hrows, hseen⟩ := tables_of_inv hinv
  obtain ⟨committed, opened, hcommitted, hopened⟩ := hcalls.log
  refine ⟨log, hlog, committed, opened, hcommitted, hopened, ?_⟩
  rw [hcommitted, ← List.map_flatten] at hall
  obtain ⟨m, hm, hrep⟩ := represents_executeAll (represents_toMap hlower) hall
  refine ⟨m, hm, ?_, ?_⟩
  · obtain ⟨table', hrows', hrep'⟩ := hrep.perm hrows
    exact ⟨table', hrows', hrep'.shows⟩
  · intro connection
    obtain ⟨seen, hexec, hperm⟩ := hseen connection
    rw [hopened connection] at hexec
    obtain ⟨m', hm', hrep'⟩ := represents_executeAll hrep hexec
    obtain ⟨table', hrows', hrep''⟩ := hrep'.perm hperm
    exact ⟨m', hm', table', hrows', hrep''.shows⟩

/-- The map after the update, and with the insert on top of it. -/
theorem insertAndUpdate_map :
    ∃ s : Server, ∃ log, run (Recorded.step Jdk.ascii) (Recorded.start Server.testTable.rows)
        Server.insertAndUpdate = some ⟨s, log⟩ ∧
      ∃ (committed : List (List (Call Jdk.ascii))) (opened : ℕ → List (Call Jdk.ascii)),
        log.committed = committed.map (List.map Call.stmt) ∧
        (∀ connection, log.opened connection = (opened connection).map Call.stmt) ∧
        ∃ m, Server.testTable.toMap.applyAll Jdk.ascii.toLowerCase
            (committed.flatten.map Call.mapOp) = some m ∧
          (∃ table, table.rows = s.committed ∧ Shows Jdk.ascii table m) ∧
          ∀ connection, ∃ m', m.applyAll Jdk.ascii.toLowerCase
              ((opened connection).map Call.mapOp) = some m' ∧
            ∃ table, table.rows = s.seen connection ∧ Shows Jdk.ascii table m' := by
  have hrun : run (Server.step Jdk.ascii) (Server.start Server.testTable.rows)
      Server.insertAndUpdate = some _ := rfl
  have hlower : LowerNames Jdk.ascii Server.testTable.rows := by
    intro r hr
    obtain rfl := List.mem_singleton.mp hr
    decide
  exact ⟨_, streams_are_map hlower hrun Server.indexes_insertAndUpdate⟩

end Transaction

end AuroraSizing

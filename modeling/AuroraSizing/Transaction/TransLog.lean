import AuroraSizing.Foundation.Bytes
import AuroraSizing.Foundation.KeyedRows
import AuroraSizing.Foundation.System
import AuroraSizing.Transaction.Closing

/-!
# The transaction log

One stream against the three tables it writes, with a database that answers: a header row
needs an id of its own, a part row needs its header row, and a statement that returns has
done what it says. Any statement may raise. Between any two calls of the observer other
clients may commit what they like, except under the stream's transaction id, which the
sequence gives to no one else.

`log_matches` says what stands in the committed tables at every point of such a run; the
parts are numbered by an `int`, which `part_id_wraps` counts past its end. The model adds
two things to the tables to say it: `applied`, the operations of the stream that a state
contains, and a mark on the rows that the stream was the last to write.
-/

namespace AuroraSizing.TransLog

open Foundation.Bytes Foundation.Journal Foundation.KeyedRows Foundation.System Transaction

/-! ## The tables -/

structure Tables where
  /-- `objects`, each row with whether the stream was the last to write it. -/
  objects : List (ObjectRow × Bool)
  /-- `tdms_trans_header_primary` -/
  headers : List HeaderRow
  /-- `tdms_trans_part_primary` -/
  parts : List PartRow
  /-- The operations of the stream, in the order they were executed. -/
  applied : List Stmt
  primaryKey : Foundation.KeyedRows.Unique HeaderRow.txnlogTransId headers
  fk_txnlog_trans_id : ∀ p ∈ parts, ∃ h ∈ headers, h.txnlogTransId = p.txnlogTransId

/-- The number of the operation in a message's `trans_seq`; a log row is none. -/
def transSeq? : Stmt → Option ℤ
  | .insertRecords _ => some 1
  | .updateRecords _ _ => some 2
  | .renameRecords _ _ => some 3
  | .deleteRecords _ => some 4
  | .insertTransHeader _ | .insertTransParts _ => none

/-- The rows after an operation of the stream. -/
def write (s : Stmt) (objects : List (ObjectRow × Bool)) : List (ObjectRow × Bool) :=
  match s, s.key? with
  | .insertRecords row, _ => objects ++ [(row, true)]
  | s, some k =>
      rewrite (fun v => k.matches v.1) (fun v => (s.rewrite v.1).map fun r => (r, true)) objects
  | _, none => objects

/-- How many rows an operation changes. -/
def affected (s : Stmt) (objects : List (ObjectRow × Bool)) : ℕ :=
  match s.key? with
  | some k => (objects.filter fun v => k.matches v.1).length
  | none => 1

namespace Tables

theorem primaryKey_append (t : Tables) {row : HeaderRow}
    (h : ∀ r ∈ t.headers, r.txnlogTransId ≠ row.txnlogTransId) :
    Foundation.KeyedRows.Unique HeaderRow.txnlogTransId (t.headers ++ [row]) :=
  unique_concat.mpr ⟨t.primaryKey, lookup_eq_none.mpr h⟩

/-- The rows a statement changes and the tables after it; `none` is a violated key. -/
def execute (t : Tables) : Stmt → Option (ℕ × Tables)
  | .insertTransHeader row =>
      if h : ∀ r ∈ t.headers, r.txnlogTransId ≠ row.txnlogTransId then
        some (1, { t with
          headers := t.headers ++ [row]
          primaryKey := t.primaryKey_append h
          fk_txnlog_trans_id := fun p hp =>
            (t.fk_txnlog_trans_id p hp).imp fun _ hr => ⟨List.mem_append_left _ hr.1, hr.2⟩ })
      else none
  | .insertTransParts row =>
      if h : ∃ r ∈ t.headers, r.txnlogTransId = row.txnlogTransId then
        some (1, { t with
          parts := t.parts ++ [row]
          fk_txnlog_trans_id := fun p hp =>
            (List.mem_append.mp hp).elim (t.fk_txnlog_trans_id p)
              fun hrow => List.mem_singleton.mp hrow ▸ h })
      else none
  | s =>
      some (affected s t.objects,
        { t with objects := write s t.objects, applied := t.applied ++ [s] })

end Tables

/-! ## Runs -/

structure Session where
  stream : Stream
  /-- The calls that the callback under way has still to make. -/
  todo : List Action
  committed : Tables
  /-- What the stream's transaction sees. -/
  current : Tables

/-- What other clients did leaves the stream's rows alone, and the mark goes where they
have written. -/
def LeavesAlone (id : JLong) (t t' : Tables) : Prop :=
  (t'.parts.filter fun p => p.txnlogTransId = id) = (t.parts.filter fun p => p.txnlogTransId = id) ∧
    t'.applied = t.applied ∧ ∀ v ∈ t'.objects, v.2 = true → v ∈ t.objects

instance (id : JLong) (t t' : Tables) : Decidable (LeavesAlone id t t') :=
  inferInstanceAs (Decidable (_ ∧ _ ∧ _))

inductive Happening where
  | callback (e : Event)
  /-- The callback under way makes its next call. -/
  | call
  /-- Other clients commit. -/
  | others (committed current : Tables)

namespace Session

/-- The database's side of a call; `none` is an answer that is not the database's. -/
def perform (s : Session) : Action → Option Session
  | .execute stmt rows raised =>
      if rows = 0 ∧ raised = true then some s
      else
        match s.current.execute stmt with
        | some (n, current) => if n = rows then some { s with current := current } else none
        | none => none
  | .commit true => some { s with committed := s.current }
  | .rollback true => some { s with current := s.committed }
  | .commit false | .rollback false | .close _ | .respond _ => some s

/-- Nothing is delivered while a callback runs, and nothing after the server has ended the
call. -/
def step (jdk : Jdk) (id : JLong) (s : Session) : Happening → Option Session
  | .callback e =>
      match s.stream.callOpen, s.todo with
      | true, [] =>
          some { s with
            stream := s.stream.deliver jdk e
            todo := (s.stream.observer.callback jdk e).2.trace }
      | _, _ => none
  | .call =>
      match s.todo with
      | a :: rest => perform { s with todo := rest } a
      | [] => none
  | .others committed current =>
      if LeavesAlone id s.committed committed ∧ LeavesAlone id s.current current then
        some { s with committed := committed, current := current }
      else none

def start (resultSet : Option JLong) (t : Tables) : Session := ⟨Stream.start resultSet, [], t, t⟩

end Session

/-- Nothing in the tables is the stream's. -/
structure Fresh (id : JLong) (t : Tables) : Prop where
  parts : ∀ p ∈ t.parts, p.txnlogTransId ≠ id
  applied : t.applied = []
  objects : ∀ v ∈ t.objects, v.2 = false

/-- The message's `trans_seq` is one of the six declared. -/
def Declared : Happening → Prop
  | .callback (.onNext r, _) => transType r ≠ .unrecognized
  | .callback (.onCompleted, _) | .callback (.onError, _) | .call | .others _ _ => True

/-- One part row for each operation applied, in order, under a header row. `number i` is the
`part_id` of the `i`-th operation. -/
structure LogMatches (id : JLong) (number : ℕ → ℤ) (t : Tables) : Prop where
  parts : (t.parts.filter fun p => p.txnlogTransId = id).map
    (fun p => (p.partId.toInt, some p.operationId)) =
      t.applied.mapIdx fun i s => (number i, transSeq? s)
  header : t.applied ≠ [] → ∃ h ∈ t.headers, h.txnlogTransId = id
  lastTransaction : ∀ v ∈ t.objects, v.2 = true → v.1.lastTransaction = id

/-- The `int` that has counted to `i`. -/
def asInt (i : ℕ) : ℤ := (BitVec.ofNat 32 i).toInt

/-- The `int` is the number up to `2 ^ 31`. -/
theorem asInt_of_lt {i : ℕ} (h : i < 2 ^ 31) : asInt i = i :=
  toInt_ofNat_of_lt (by omega)

theorem asInt_wraps : asInt (2 ^ 31) = -2147483648 := by decide

theorem LogMatches.cast_iff {id : JLong} {t : Tables} (h : LogMatches id asInt t) :
    LogMatches id Nat.cast t ↔ t.applied.length ≤ 2 ^ 31 := by
  constructor
  · intro hcast
    by_contra hlong
    rw [Nat.not_le] at hlong
    have hsame := hcast.parts.symm.trans h.parts
    have hnumber := congrArg (fun l => (l[2 ^ 31]?).map Prod.fst) hsame
    simp only [List.getElem?_mapIdx, List.getElem?_eq_getElem hlong, Option.map_some,
      Option.some.injEq, asInt_wraps] at hnumber
    cases hnumber
  · intro hle
    refine ⟨?_, h.header, h.lastTransaction⟩
    rw [h.parts]
    refine List.ext_getElem (by simp) ?_
    intro i hi _
    rw [List.length_mapIdx] at hi
    simp only [List.getElem_mapIdx, asInt_of_lt (Nat.lt_of_lt_of_le hi hle)]

/-! ## What a statement does to the log -/

/-- The log rows of the stream are those of `logged`. -/
structure Books (id : JLong) (logged : List Stmt) (t : Tables) : Prop where
  parts : (t.parts.filter fun p => p.txnlogTransId = id).map
    (fun p => (p.partId.toInt, some p.operationId)) =
      logged.mapIdx fun i s => (asInt i, transSeq? s)
  lastTransaction : ∀ v ∈ t.objects, v.2 = true → v.1.lastTransaction = id

/-- A part row is under a header row, so the header needs no step of its own. -/
theorem Books.logMatches {id : JLong} {t : Tables} (h : Books id t.applied t) :
    LogMatches id asInt t := by
  refine ⟨h.parts, ?_, h.lastTransaction⟩
  intro happlied
  have hne : (t.parts.filter fun p => p.txnlogTransId = id) ≠ [] := by
    intro hnil
    have hparts := h.parts
    rw [hnil, List.map_nil, eq_comm, List.mapIdx_eq_nil_iff] at hparts
    exact happlied hparts
  obtain ⟨p, hp⟩ := List.exists_mem_of_ne_nil _ hne
  obtain ⟨hmem, hid⟩ := List.mem_filter.mp hp
  obtain ⟨row, hrow, heq⟩ := t.fk_txnlog_trans_id p hmem
  exact ⟨row, hrow, heq.trans (of_decide_eq_true hid)⟩

theorem Books.leavesAlone {id : JLong} {logged : List Stmt} {t t' : Tables}
    (h : Books id logged t) (halone : LeavesAlone id t t') : Books id logged t' := by
  rcases halone with ⟨hparts, -, hobjects⟩
  refine ⟨?_, ?_⟩
  · rw [hparts]
    exact h.parts
  · intro v hv hmark
    exact h.lastTransaction v (hobjects v hv hmark) hmark

theorem Fresh.books {id : JLong} {t : Tables} (h : Fresh id t) : Books id t.applied t := by
  have hnone : (t.parts.filter fun p => p.txnlogTransId = id) = [] := by
    refine List.filter_eq_nil_iff.mpr ?_
    intro p hp
    simpa using h.parts p hp
  refine ⟨?_, ?_⟩
  · rw [hnone, h.applied]
    rfl
  · intro v hv hmark
    rw [h.objects v hv] at hmark
    cases hmark

/-- An operation marks no row but with its own id. -/
theorem write_lastTransaction {id : JLong} {s : Stmt} {objects : List (ObjectRow × Bool)}
    (hstamp : ∀ v, s.stampedId? = some v → v = id)
    (h : ∀ v ∈ objects, v.2 = true → v.1.lastTransaction = id) :
    ∀ v ∈ write s objects, v.2 = true → v.1.lastTransaction = id := by
  have hrewrite : ∀ k, ∀ v ∈ rewrite (fun v : ObjectRow × Bool => RowKey.matches k v.1)
      (fun v => (s.rewrite v.1).map fun r => (r, true)) objects,
      (∀ w r, s.rewrite w = some r → r.lastTransaction = id) →
        v.2 = true → v.1.lastTransaction = id := by
    intro k v hv hkeeps hmark
    rcases List.mem_filterMap.mp hv with ⟨w, hw, hrow⟩
    split at hrow
    · obtain ⟨r, hr, rfl⟩ := Option.map_eq_some_iff.mp hrow
      exact hkeeps w.1 r hr
    · cases hrow
      exact h v hw hmark
  cases s with
  | insertRecords row =>
      intro v hv hmark
      rcases List.mem_append.mp hv with hv | hv
      · exact h v hv hmark
      · rw [List.mem_singleton.mp hv]
        exact hstamp _ rfl
  | updateRecords set k =>
      intro v hv
      refine hrewrite k v hv ?_
      intro w r hr
      cases hr
      exact hstamp _ rfl
  | renameRecords set k =>
      intro v hv
      refine hrewrite k v hv ?_
      intro w r hr
      cases hr
      exact hstamp _ rfl
  | deleteRecords k =>
      intro v hv
      refine hrewrite k v hv ?_
      intro w r hr
      cases hr
  | insertTransHeader row => exact h
  | insertTransParts row => exact h

/-- The statement is an operation, not a log row. -/
theorem execute_operation {id : JLong} {logged : List Stmt} {t t' : Tables} {s : Stmt} {n : ℕ}
    (hop : (transSeq? s).isSome = true) (hstamp : ∀ v, s.stampedId? = some v → v = id)
    (h : Books id logged t) (hexec : t.execute s = some (n, t')) :
    Books id logged t' ∧ t'.applied = t.applied ++ [s] := by
  have heq : t' = { t with objects := write s t.objects, applied := t.applied ++ [s] } := by
    cases s with
    | insertTransHeader row => cases hop
    | insertTransParts row => cases hop
    | insertRecords row => exact ((Prod.mk.inj (Option.some.inj hexec)).2).symm
    | updateRecords set k => exact ((Prod.mk.inj (Option.some.inj hexec)).2).symm
    | renameRecords set k => exact ((Prod.mk.inj (Option.some.inj hexec)).2).symm
    | deleteRecords k => exact ((Prod.mk.inj (Option.some.inj hexec)).2).symm
  subst heq
  exact ⟨⟨h.parts, write_lastTransaction hstamp h.lastTransaction⟩, rfl⟩

theorem execute_header {id : JLong} {logged : List Stmt} {t t' : Tables} {row : HeaderRow} {n : ℕ}
    (h : Books id logged t) (hexec : t.execute (.insertTransHeader row) = some (n, t')) :
    Books id logged t' ∧ t'.applied = t.applied := by
  simp only [Tables.execute] at hexec
  split at hexec
  · obtain ⟨-, rfl⟩ := Prod.mk.inj (Option.some.inj hexec)
    exact ⟨⟨h.parts, h.lastTransaction⟩, rfl⟩
  · cases hexec

/-- The part row of an operation goes behind those that are there. -/
theorem execute_part {id : JLong} {logged : List Stmt} {t t' : Tables} {row : PartRow} {s : Stmt}
    {n : ℕ} (hid : row.txnlogTransId = id) (hpart : row.partId = BitVec.ofNat 32 logged.length)
    (hop : transSeq? s = some row.operationId) (h : Books id logged t)
    (hexec : t.execute (.insertTransParts row) = some (n, t')) :
    Books id (logged ++ [s]) t' ∧ t'.applied = t.applied := by
  simp only [Tables.execute] at hexec
  split at hexec
  · obtain ⟨-, rfl⟩ := Prod.mk.inj (Option.some.inj hexec)
    refine ⟨⟨?_, h.lastTransaction⟩, rfl⟩
    have hrow : ([row].filter fun p => p.txnlogTransId = id) = [row] := by simp [hid]
    rw [List.filter_append, hrow, List.map_append, h.parts, List.mapIdx_append]
    simp [hpart, hop, asInt]
  · cases hexec

/-! ## What a callback calls -/

/-- The number of each declared operation is the one its statement stands for. -/
theorem opStmt_transSeq {jdk : Jdk} {r : CmdTransactionRequest} {id : JLong} {now : Timestamp}
    {s : Stmt} (h : opStmt? jdk r id now = some s) : transSeq? s = some r.transSeqValue := by
  have hvalue : ∀ y, TransType.ofValue r.transSeqValue = y → opStmt? jdk r id now = some s →
      transSeq? s = some r.transSeqValue := by
    intro y hy hs
    rw [opStmt?, transType, hy] at hs
    unfold TransType.ofValue at hy
    split_ifs at hy with h0 h1 h2 h3 h4 h5 <;> subst hy
    · cases hs
    · obtain ⟨t, -, rfl⟩ := Option.map_eq_some_iff.mp hs
      rw [h1]
      rfl
    · obtain ⟨t, -, rfl⟩ := Option.map_eq_some_iff.mp hs
      rw [h2]
      rfl
    · cases hs
      rw [h3]
      rfl
    · cases hs
      rw [h4]
      rfl
    · cases hs
    · cases hs
  exact hvalue _ rfl h

/-- A served part is its operation and the row that logs it. -/
theorem messageStmts_part {jdk : Jdk} {r : CmdTransactionRequest} {o : Outcomes}
    (h : verdict jdk r o = .served) (hpart : isPart r = true)
    (hdeclared : transType r ≠ .unrecognized) (id : JLong) (k : ℕ) :
    ∃ s, opStmt? jdk r id o.now = some s ∧ messageStmts jdk r id k o.now =
      [s, .insertTransParts (ObjectRepository.partRow r id k)] := by
  have hop := (verdict_served_iff.mp h).1
  have htime : ∀ (time : Option Timestamp) (f : Timestamp → Stmt),
      timedVerdict jdk time o.op = .served → ∃ s, time.map f = some s := by
    intro time f htimed
    cases time with
    | some t => exact ⟨f t, rfl⟩
    | none =>
        have hprepared := (good_of_stmtVerdict (timedVerdict_served htimed)).1
        rw [timedVerdict, if_pos ⟨hprepared, rfl⟩] at htimed
        cases htimed
  simp only [messageStmts, logStmt?, opStmt?]
  cases hr : transType r with
  | header => simp [isPart, hr] at hpart
  | trailer => simp [isPart, hr] at hpart
  | unrecognized => exact absurd hr hdeclared
  | insert =>
      simp only [opVerdict, hr] at hop
      obtain ⟨s, hs⟩ := htime _ (ObjectRepository.bindInsertRec jdk r.getInsert id) hop
      exact ⟨s, hs, by rw [hs]; rfl⟩
  | update =>
      simp only [opVerdict, hr] at hop
      obtain ⟨s, hs⟩ := htime _ (ObjectRepository.bindUpdateRec r.getUpdate id) hop
      exact ⟨s, hs, by rw [hs]; rfl⟩
  | rename => exact ⟨_, rfl, rfl⟩
  | delete => exact ⟨_, rfl, rfl⟩

/-- Only the end of the call commits among the callbacks that are not just served. -/
theorem no_commit_of_unserved {jdk : Jdk} {obs : Observer} {id : JLong} (h : obs.txnId = some id)
    {e : Event} (hserved : servedEvent jdk e = false) (hend : e.1 ≠ .onCompleted) :
    ∀ a ∈ (obs.callback jdk e).2.trace, a ≠ .commit true := by
  intro a ha hcommit
  have hentry : Entry.commit ∈ entriesOf (obs.callback jdk e).2.trace :=
    List.mem_flatMap.mpr ⟨a, ha, by simp [hcommit, Action.entries]⟩
  rw [Observer.callback_entries jdk obs h, Block.entries, List.mem_append] at hentry
  have hending : eventEnding jdk e = .commit := by
    rcases hentry with hwrite | hending
    · obtain ⟨s, -, hs⟩ := List.mem_map.mp hwrite
      cases hs
    · cases hcase : eventEnding jdk e <;> simp [eventBlock, hcase, Ending.entries] at hending ⊢
  have hcommits := eventEnding_commit_iff.mp hending
  rcases e with ⟨cb, o⟩
  cases cb with
  | onNext r =>
      rcases hcommits with ⟨ht, hc⟩
      simp [servedEvent, verdict_trailer ht, hc] at hserved
  | onCompleted => exact hend rfl
  | onError => exact hcommits

/-! ## The states of a stream -/

/-- The observer numbers its next part `n`; before the first message it has no id yet, and
where the query for one failed it never has. -/
def Counts (id : JLong) (n : ℕ) (obs : Observer) : Prop :=
  obs.transpartIndex = n ∧ (obs.txnId = some id ∨
    ∃ resultSet, (∀ v ∈ resultSet, v = id) ∧ obs = (Stream.start resultSet).observer)

/-- How the log stands to what the callback under way has still to do. -/
inductive Standing (id : JLong) (callOpen : Bool) (obs : Observer) :
    List Action → Tables → Prop
  | idle {t : Tables} (counts : Counts id t.applied.length obs) (books : Books id t.applied t) :
      Standing id callOpen obs [] t
  | header {t : Tables} {row : HeaderRow} (counts : Counts id t.applied.length obs)
      (books : Books id t.applied t) :
      Standing id callOpen obs [.execute (.insertTransHeader row) 1 false] t
  | operation {t : Tables} {s : Stmt} {row : PartRow}
      (counts : Counts id (t.applied.length + 1) obs) (books : Books id t.applied t)
      (stamp : ∀ v, s.stampedId? = some v → v = id) (transId : row.txnlogTransId = id)
      (part : row.partId = BitVec.ofNat 32 t.applied.length)
      (seq : transSeq? s = some row.operationId) :
      Standing id callOpen obs [.execute s 1 false, .execute (.insertTransParts row) 1 false] t
  /-- The operation is done and its row is not there yet. -/
  | owing {t : Tables} {logged : List Stmt} {s : Stmt} {row : PartRow}
      (counts : Counts id t.applied.length obs) (books : Books id logged t)
      (applied : t.applied = logged ++ [s]) (transId : row.txnlogTransId = id)
      (part : row.partId = BitVec.ofNat 32 logged.length)
      (seq : transSeq? s = some row.operationId) :
      Standing id callOpen obs [.execute (.insertTransParts row) 1 false] t
  | trailer {t : Tables} (counts : Counts id t.applied.length obs)
      (books : Books id t.applied t) : Standing id callOpen obs [.commit true] t
  | completing {t : Tables} {rest : List Action} (closed : callOpen = false)
      (books : Books id t.applied t) (last : ∀ a ∈ rest, a ≠ .commit true) :
      Standing id callOpen obs (.commit true :: rest) t
  /-- Whatever the tables hold, nothing commits it. -/
  | ended {t : Tables} {todo : List Action} (closed : callOpen = false)
      (last : ∀ a ∈ todo, a ≠ .commit true) : Standing id callOpen obs todo t

/-- What holds between any two steps. -/
structure Inv (id : JLong) (s : Session) : Prop where
  committed : LogMatches id asInt s.committed
  standing : Standing id s.stream.callOpen s.stream.observer s.todo s.current

theorem Standing.leavesAlone {id : JLong} {callOpen : Bool} {obs : Observer} {todo : List Action}
    {t t' : Tables} (h : Standing id callOpen obs todo t) (halone : LeavesAlone id t t') :
    Standing id callOpen obs todo t' := by
  have happlied : t.applied = t'.applied := halone.2.1.symm
  cases h with
  | idle counts books =>
      rw [happlied] at counts books
      exact .idle counts (books.leavesAlone halone)
  | header counts books =>
      rw [happlied] at counts books
      exact .header counts (books.leavesAlone halone)
  | operation counts books stamp transId part seq =>
      rw [happlied] at counts books part
      exact .operation counts (books.leavesAlone halone) stamp transId part seq
  | owing counts books applied transId part seq =>
      rw [happlied] at counts applied
      exact .owing counts (books.leavesAlone halone) applied transId part seq
  | trailer counts books =>
      rw [happlied] at counts books
      exact .trailer counts (books.leavesAlone halone)
  | completing closed books last =>
      rw [happlied] at books
      exact .completing closed (books.leavesAlone halone) last
  | ended closed last => exact .ended closed last

/-! ## Steps -/

/-- Whether the call is open after a callback that it was open for. -/
def survives (jdk : Jdk) (obs : Observer) (e : Event) : Bool :=
  (e.1 != .onError) && ((obs.callback jdk e).2.trace.filterMap Action.response?).isEmpty &&
    (obs.callback jdk e).2.result.isOk

theorem callOpen_deliver {jdk : Jdk} {st : Stream} (h : st.callOpen = true) (e : Event) :
    (st.deliver jdk e).callOpen = survives jdk st.observer e := by
  simp [Stream.deliver, Stream.openFor, survives, h]

theorem standing_served {jdk : Jdk} {obs : Observer} {id : JLong} (h : obs.txnId = some id)
    {t : Tables} (hindex : obs.transpartIndex = t.applied.length) (hbooks : Books id t.applied t)
    {r : CmdTransactionRequest} {o : Outcomes} (hserved : verdict jdk r o = .served)
    (hdeclared : transType r ≠ .unrecognized) (callOpen : Bool) :
    Standing id callOpen (obs.callback jdk (.onNext r, o)).1
      (obs.callback jdk (.onNext r, o)).2.trace t := by
  have hobs := Observer.callback_observer jdk obs h (.onNext r, o)
  have htrace : (obs.callback jdk (.onNext r, o)).2.trace =
      (serve jdk r id obs.transpartIndex o).trace := by
    rw [Observer.callback, (Observer.onNext_spec jdk obs r o (Observer.readTxnId_known h o)).2,
      hserved]
  have hcounts : ∀ n, nextIndex jdk obs.transpartIndex (.onNext r, o) = n →
      Counts id n (obs.callback jdk (.onNext r, o)).1 := by
    intro n hn
    rw [hobs]
    exact ⟨hn, .inl h⟩
  rw [htrace, serve_trace_served hserved]
  by_cases hpart : isPart r = true
  · have hnext : nextIndex jdk obs.transpartIndex (.onNext r, o) = t.applied.length + 1 := by
      simp [nextIndex, hserved, hpart, hindex]
    have htrailer : transType r ≠ .trailer := by
      intro htrailer
      simp [isPart, htrailer] at hpart
    obtain ⟨s, hs, hstmts⟩ :=
      messageStmts_part hserved hpart hdeclared id obs.transpartIndex
    have hmem : s ∈ messageStmts jdk r id obs.transpartIndex o.now := by simp [hstmts]
    rw [if_neg htrailer, hstmts]
    exact .operation (hcounts _ hnext) hbooks (fun v hv => stampedId_of_mem_messageStmts hmem hv)
      rfl (congrArg (BitVec.ofNat 32) hindex) (opStmt_transSeq hs)
  · have hnext : nextIndex jdk obs.transpartIndex (.onNext r, o) = t.applied.length := by
      simp [nextIndex, hpart, hindex]
    cases hr : transType r with
    | header =>
        have hstmts : messageStmts jdk r id obs.transpartIndex o.now =
            [.insertTransHeader (ObjectRepository.headerRow r.getHeader id o.now)] := by
          simp [messageStmts, opStmt?, logStmt?, hr, Store.INSERT_TRANS_HEADER]
        rw [hstmts]
        exact .header (hcounts _ hnext) hbooks
    | trailer => exact .trailer (hcounts _ hnext) hbooks
    | insert => simp [isPart, hr] at hpart
    | update => simp [isPart, hr] at hpart
    | rename => simp [isPart, hr] at hpart
    | delete => simp [isPart, hr] at hpart
    | unrecognized => exact absurd hr hdeclared

/-- The half-close commits first. -/
theorem standing_completed {id : JLong} {t : Tables} (hbooks : Books id t.applied t)
    (jdk : Jdk) (obs obs' : Observer) (o : Outcomes) :
    Standing id false obs' (obs.onCompleted jdk o).trace t := by
  obtain ⟨rest, htrace, hcalls⟩ := Observer.onCompleted_calls jdk obs o
  have hrest : ∀ a ∈ rest, a ≠ .commit true := by
    intro a ha heq
    rcases hcalls a ha with ⟨ok, rfl⟩ | ⟨m, rfl⟩ <;> cases heq
  rw [htrace]
  cases o.commit with
  | true => exact .completing rfl hbooks hrest
  | false =>
      refine .ended rfl ?_
      intro a ha
      rcases List.mem_cons.mp ha with rfl | ha
      · simp
      · exact hrest a ha

theorem standing_known (jdk : Jdk) (obs : Observer) {id : JLong} (h : obs.txnId = some id)
    {t : Tables} (hindex : obs.transpartIndex = t.applied.length) (hbooks : Books id t.applied t)
    {e : Event} (hdeclared : Declared (.callback e)) :
    Standing id (survives jdk obs e) (obs.callback jdk e).1 (obs.callback jdk e).2.trace t := by
  cases hserved : servedEvent jdk e with
  | true =>
      rcases e with ⟨cb, o⟩
      cases cb with
      | onNext r =>
          have hv : verdict jdk r o = .served := by simpa [servedEvent] using hserved
          exact standing_served h hindex hbooks hv hdeclared _
      | onCompleted => cases hserved
      | onError => cases hserved
  | false =>
      have hclosed : survives jdk obs e = false := by
        rw [survives, Bool.and_assoc, Observer.callback_survives jdk obs h, hserved, Bool.and_false]
      rw [hclosed]
      by_cases hend : e.1 = .onCompleted
      · obtain ⟨cb, o⟩ := e
        cases hend
        exact standing_completed hbooks jdk obs obs o
      · exact .ended rfl (no_commit_of_unserved h hserved hend)

theorem readTxnId_start {resultSet : Option JLong} {id : JLong}
    (hid : ∀ v ∈ resultSet, v = id) (o : Outcomes) :
    resultSet = some id ∧ o.getLong = true ∨
      ∃ e, ((Stream.start resultSet).observer.readTxnId o).result = .error e := by
  cases resultSet with
  | none => exact .inr ⟨.nullPointerException, rfl⟩
  | some v =>
      cases hget : o.getLong with
      | true => exact .inl ⟨congrArg some (hid v rfl), rfl⟩
      | false => exact .inr ⟨.sqlException, by simp [Stream.start, Observer.readTxnId, hget]⟩

/-- The first callback, before the observer has its id. -/
theorem standing_first {jdk : Jdk} {id : JLong} {resultSet : Option JLong}
    (hid : ∀ v ∈ resultSet, v = id) {t : Tables} (hlength : t.applied.length = 0)
    (hbooks : Books id t.applied t) {e : Event} (hdeclared : Declared (.callback e)) :
    Standing id (survives jdk (Stream.start resultSet).observer e)
      ((Stream.start resultSet).observer.callback jdk e).1
      ((Stream.start resultSet).observer.callback jdk e).2.trace t := by
  rcases e with ⟨cb, o⟩
  cases cb with
  | onNext r =>
      rcases readTxnId_start hid o with ⟨rfl, hget⟩ | ⟨x, hread⟩
      · have hknown := standing_known jdk (Stream.known id).observer rfl hlength.symm hbooks
          hdeclared
        rw [survives, Stream.callback_start jdk id r hget]
        exact hknown
      · rw [survives, Observer.callback, Observer.onNext, hread]
        -- a `SQLException` rolls back in `onError`, any other has called nothing
        cases x with
        | sqlException =>
            obtain ⟨htrace, hresult⟩ :=
              Observer.onError_spec jdk (Stream.start resultSet).observer o
            rw [Observer.answerId_unknown rfl] at htrace hresult
            simp only [Observer.handle, Jdbc.throw, List.nil_append, htrace, hresult]
            exact .ended (Bool.and_false _) (by simp)
        | _ => exact .ended (Bool.and_false _) (by simp [Observer.handle])
  | onCompleted =>
      have hresult := (Observer.onCompleted_spec jdk (Stream.start resultSet).observer o).2
      rw [Observer.answerId_unknown rfl] at hresult
      have hclosed : survives jdk (Stream.start resultSet).observer (.onCompleted, o) = false := by
        rw [survives, Observer.callback, hresult]
        exact Bool.and_false _
      rw [hclosed]
      exact standing_completed hbooks jdk _ _ o
  | onError =>
      refine .ended rfl ?_
      obtain ⟨rest, htrace, hcalls⟩ :=
        Observer.onError_calls jdk (Stream.start resultSet).observer o
      rw [Observer.callback, htrace]
      intro a ha heq
      rcases List.mem_cons.mp ha with rfl | ha
      · cases heq
      · rcases hcalls a ha with ⟨ok, rfl⟩ | ⟨m, rfl⟩ <;> cases heq

theorem perform_execute {s s' : Session} {stmt : Stmt}
    (h : s.perform (.execute stmt 1 false) = some s') :
    ∃ t, s.current.execute stmt = some (1, t) ∧ s' = { s with current := t } := by
  have hran : ¬ (1 = 0 ∧ false = true) := by simp
  rw [Session.perform, if_neg hran] at h
  cases hexec : s.current.execute stmt with
  | none => simp [hexec] at h
  | some result =>
      rcases result with ⟨n, t⟩
      simp only [hexec] at h
      split at h
      · rename_i hn
        subst hn
        exact ⟨t, rfl, (Option.some.inj h).symm⟩
      · cases h

/-- A call leaves the stream alone, and only a commit reaches the committed tables. -/
theorem perform_frame {s s' : Session} {a : Action} (h : s.perform a = some s') :
    s'.stream = s.stream ∧ s'.todo = s.todo ∧
      (a ≠ .commit true → s'.committed = s.committed) := by
  cases a with
  | execute stmt rows raised =>
      simp only [Session.perform] at h
      split at h
      · cases h
        exact ⟨rfl, rfl, fun _ => rfl⟩
      · split at h
        · split at h
          · cases h
            exact ⟨rfl, rfl, fun _ => rfl⟩
          · cases h
        · cases h
  | commit ok =>
      cases ok with
      | true =>
          cases h
          exact ⟨rfl, rfl, fun hne => absurd rfl hne⟩
      | false =>
          cases h
          exact ⟨rfl, rfl, fun _ => rfl⟩
  | rollback ok => cases ok <;> cases h <;> exact ⟨rfl, rfl, fun _ => rfl⟩
  | close ok =>
      cases h
      exact ⟨rfl, rfl, fun _ => rfl⟩
  | respond m =>
      cases h
      exact ⟨rfl, rfl, fun _ => rfl⟩

theorem Inv.callback {jdk : Jdk} {id : JLong} {s : Session} (h : Inv id s) {e : Event}
    (hdeclared : Declared (.callback e)) (hopen : s.stream.callOpen = true) (htodo : s.todo = []) :
    Inv id { s with
      stream := s.stream.deliver jdk e
      todo := (s.stream.observer.callback jdk e).2.trace } := by
  rcases h with ⟨hcommitted, hstanding⟩
  refine ⟨hcommitted, ?_⟩
  have hobs : (s.stream.deliver jdk e).observer = (s.stream.observer.callback jdk e).1 := rfl
  rw [callOpen_deliver hopen, hobs]
  rw [htodo, hopen] at hstanding
  cases hstanding with
  | idle counts books =>
      rcases counts with ⟨hindex, hknown | ⟨resultSet, hid, hfirst⟩⟩
      · exact standing_known jdk _ hknown hindex books hdeclared
      · rw [hfirst] at hindex ⊢
        exact standing_first hid hindex.symm books hdeclared
  | ended closed _ => cases closed

/-- Whichever call it is, the log stands to the rest as before. -/
theorem Inv.call {id : JLong} {s s' : Session} {a : Action} {rest : List Action} (h : Inv id s)
    (htodo : s.todo = a :: rest)
    (hperform : Session.perform { s with todo := rest } a = some s') : Inv id s' := by
  rcases h with ⟨hcommitted, hstanding⟩
  obtain ⟨hstream, htodo', hkept⟩ := perform_frame hperform
  rw [htodo] at hstanding
  cases hstanding with
  | header counts books =>
      obtain ⟨t, hexec, rfl⟩ := perform_execute hperform
      obtain ⟨hbooks, happlied⟩ := execute_header books hexec
      rw [← happlied] at counts hbooks
      exact ⟨hcommitted, .idle counts hbooks⟩
  | operation counts books stamp transId part seq =>
      obtain ⟨t, hexec, rfl⟩ := perform_execute hperform
      obtain ⟨hbooks, happlied⟩ := execute_operation (by rw [seq]; rfl) stamp books hexec
      refine ⟨hcommitted, .owing ?_ hbooks happlied transId part seq⟩
      rw [happlied, List.length_append]
      exact counts
  | owing counts books applied transId part seq =>
      obtain ⟨t, hexec, rfl⟩ := perform_execute hperform
      obtain ⟨hbooks, happlied⟩ := execute_part transId part seq books hexec
      rw [← happlied] at counts
      rw [← applied, ← happlied] at hbooks
      exact ⟨hcommitted, .idle counts hbooks⟩
  | trailer counts books =>
      cases hperform
      exact ⟨books.logMatches, .idle counts books⟩
  | completing closed books last =>
      cases hperform
      exact ⟨books.logMatches, .ended closed last⟩
  | ended closed last =>
      obtain ⟨ha, hrest⟩ := List.forall_mem_cons.mp last
      refine ⟨?_, ?_⟩
      · rw [hkept ha]
        exact hcommitted
      · rw [hstream, htodo']
        exact .ended closed hrest

theorem LogMatches.leavesAlone {id : JLong} {t t' : Tables} (h : LogMatches id asInt t)
    (halone : LeavesAlone id t t') : LogMatches id asInt t' := by
  have hbooks : Books id t.applied t := ⟨h.parts, h.lastTransaction⟩
  have hbooks' := hbooks.leavesAlone halone
  rw [← halone.2.1] at hbooks'
  exact hbooks'.logMatches

theorem Inv.step {jdk : Jdk} {id : JLong} {s s' : Session} {e : Happening} (h : Inv id s)
    (hdeclared : Declared e) (hstep : Session.step jdk id s e = some s') : Inv id s' := by
  cases e with
  | callback e =>
      simp only [Session.step] at hstep
      split at hstep
      · rename_i hopen htodo
        cases hstep
        exact h.callback hdeclared hopen htodo
      · cases hstep
  | call =>
      simp only [Session.step] at hstep
      split at hstep
      · rename_i a rest htodo
        exact h.call htodo hstep
      · cases hstep
  | others committed current =>
      simp only [Session.step] at hstep
      split at hstep
      · rename_i halone
        cases hstep
        exact ⟨h.committed.leavesAlone halone.1, h.standing.leavesAlone halone.2⟩
      · cases hstep

/-- The run lemma. -/
theorem inv_run {jdk : Jdk} {id : JLong} {resultSet : Option JLong} {t : Tables} {s : Session}
    {es : List Happening} (hid : ∀ v ∈ resultSet, v = id) (hfresh : Fresh id t)
    (hdeclared : ∀ e ∈ es, Declared e)
    (hrun : run (Session.step jdk id) (Session.start resultSet t) es = some s) : Inv id s := by
  have hcounts : Counts id t.applied.length (Stream.start resultSet).observer := by
    rw [hfresh.applied]
    exact ⟨rfl, .inr ⟨resultSet, hid, rfl⟩⟩
  have hinit : Inv id (Session.start resultSet t) :=
    ⟨hfresh.books.logMatches, .idle hcounts hfresh.books⟩
  have hok : Along (Session.step jdk id) (fun _ e => Declared e) (Session.start resultSet t) es :=
    Along.of_forall (fun e he _ => hdeclared e he) _
  exact run_invariant (fun _ _ _ h hd hs => h.step hd hs) hinit hok hrun

/-- **The log of a stream matches what it applied**, in the committed tables of every state,
with the operations numbered by an `int`: from 0 on as long as there are no more than
`2 ^ 31` of them. -/
theorem log_matches (jdk : Jdk) (id : JLong) (resultSet : Option JLong)
    (hid : ∀ v ∈ resultSet, v = id) (t : Tables) (hfresh : Fresh id t) (es : List Happening)
    (hdeclared : ∀ e ∈ es, Declared e) (s : Session)
    (hrun : run (Session.step jdk id) (Session.start resultSet t) es = some s) :
    LogMatches id asInt s.committed ∧
      (LogMatches id Nat.cast s.committed ↔ s.committed.applied.length ≤ 2 ^ 31) := by
  have hinv := inv_run hid hfresh hdeclared hrun
  exact ⟨hinv.committed, hinv.committed.cast_iff⟩

/-- A row of `objects` before the stream. -/
def testSec : ObjectRow where
  name := "testSec-10"
  typeId := 0
  lastTransaction := 1
  timeUpdated := ⟨0⟩
  updateCount := 0
  dateCreated := 0
  dbIdUpdated := 0
  versionInfo := 0
  sdbDiskMem := []
  mem := []
  nameLower := "testsec-10"

def oneObject : Tables where
  objects := [(testSec, false)]
  headers := []
  parts := []
  applied := []
  primaryKey := List.nodup_nil
  fk_txnlog_trans_id := by simp

theorem fresh_oneObject : Fresh 7 oneObject := ⟨by simp [oneObject], rfl, by simp [oneObject]⟩

/-- A header and an insert, committed by the trailer, then an update that finds no row. -/
def loggedInsert : List Happening :=
  [.callback (.onNext ⟨0, .header { transName := "abc" }⟩, {}), .call,
   .callback (.onNext ⟨1, .insert { metadata := { securityName := "testSec-11"
                                                  timeUpdate := "1970-01-01 00:00:00" } }⟩, {}),
   .call, .call,
   .callback (.onNext ⟨5, .trailer⟩, {}), .call,
   .callback (.onNext ⟨2, .update { newMetadata := { timeUpdate := "1970-01-01 00:00:00" } }⟩,
     { op := { rows := 0 } }), .call, .call, .call, .call]

theorem log_matches_insert :
    ∃ s, run (Session.step Jdk.ascii 7) (Session.start (some 7) oneObject) loggedInsert = some s ∧
      s.committed.applied.length = 1 ∧ LogMatches 7 Nat.cast s.committed := by
  have hlength : (run (Session.step Jdk.ascii 7) (Session.start (some 7) oneObject)
      loggedInsert).map (fun s => s.committed.applied.length) = some 1 := by decide +kernel
  obtain ⟨s, hrun, hone⟩ := Option.map_eq_some_iff.mp hlength
  have hdeclared : ∀ e ∈ loggedInsert, Declared e := by
    simp [loggedInsert, Declared, transType, TransType.ofValue]
  have hmatches := log_matches Jdk.ascii 7 (some 7) (by simp) oneObject fresh_oneObject
    loggedInsert hdeclared s hrun
  refine ⟨s, hrun, hone, hmatches.2.mpr ?_⟩
  rw [hone]
  decide

/-! ## A stream that counts past the `int` -/

/-- An update that leaves the row under the same name and count. -/
def updateTestSec : CmdTransactionRequest :=
  ⟨2, .update { oldMetadata := { securityName := "testSec-10" }
                newMetadata := { securityName := "testSec-10"
                                 timeUpdate := "1970-01-01 00:00:00" } }⟩

/-- The header. -/
def opening : List Happening :=
  [.callback (.onNext ⟨0, .header { transName := "abc" }⟩, {}), .call]

/-- One update with its part row, committed by a trailer. -/
def updateAndCommit : List Happening :=
  [.callback (.onNext updateTestSec, {}), .call, .call,
   .callback (.onNext ⟨5, .trailer⟩, {}), .call]

/-- The stream has committed `n` updates of the row and can go on. -/
structure Updated (n : ℕ) (s : Session) : Prop where
  callOpen : s.stream.callOpen = true
  txnId : s.stream.observer.txnId = some 7
  todo : s.todo = []
  object : ∃ v, s.current.objects = [v] ∧ v.1.rowKey = testSec.rowKey
  header : ∃ h ∈ s.current.headers, h.txnlogTransId = 7
  current : s.current.applied.length = n
  committed : s.committed.applied.length = n

/-- A served message of a known stream makes its calls, and the call goes on. -/
theorem step_served (jdk : Jdk) (r : CmdTransactionRequest) (o : Outcomes) {s : Session}
    {id : JLong} (hopen : s.stream.callOpen = true) (htxnId : s.stream.observer.txnId = some id)
    (htodo : s.todo = []) (hserved : verdict jdk r o = .served) :
    ∃ stream, Session.step jdk id s (.callback (.onNext r, o)) =
        some { s with
          stream := stream
          todo := (serve jdk r id s.stream.observer.transpartIndex o).trace } ∧
      stream.callOpen = true ∧ stream.observer.txnId = some id := by
  refine ⟨s.stream.deliver jdk (.onNext r, o), ?_, ?_, ?_⟩
  · have hcalls : (s.stream.observer.callback jdk (.onNext r, o)).2.trace =
        (serve jdk r id s.stream.observer.transpartIndex o).trace := by
      rw [Observer.callback,
        (Observer.onNext_spec jdk _ r o (Observer.readTxnId_known htxnId o)).2, hserved]
    simp only [Session.step, hopen, htodo, hcalls]
  · rw [callOpen_deliver hopen, survives, Bool.and_assoc,
      Observer.callback_survives jdk _ htxnId]
    simp [servedEvent, hserved]
  · exact Stream.deliver_knows jdk _ htxnId

theorem execute_update {t : Tables} {v : ObjectRow × Bool} {set : UpdateSet}
    (hobjects : t.objects = [v]) (hkey : v.1.rowKey = testSec.rowKey)
    (hcount : set.updateCount = testSec.updateCount)
    (hdbId : set.dbIdUpdated = testSec.dbIdUpdated) :
    ∃ t', t.execute (.updateRecords set testSec.rowKey) = some (1, t') ∧
      (∃ w, t'.objects = [w] ∧ w.1.rowKey = testSec.rowKey) ∧ t'.headers = t.headers ∧
      t'.applied.length = t.applied.length + 1 := by
  have haffected : affected (.updateRecords set testSec.rowKey) t.objects = 1 := by
    simp [affected, Stmt.key?, hobjects, hkey]
  have hwrite : write (.updateRecords set testSec.rowKey) t.objects = [(set.apply v.1, true)] := by
    simp [write, rewrite, Stmt.key?, Stmt.rewrite, hobjects, hkey]
  have hname : v.1.name = testSec.name := congrArg RowKey.name hkey
  refine ⟨_, congrArg (fun n => some (n, _)) haffected, ⟨_, hwrite, ?_⟩, rfl, ?_⟩
  · simp [UpdateSet.apply, ObjectRow.rowKey, hname, hcount, hdbId]
  · exact List.length_append

theorem execute_insertTransParts {t : Tables} {row : PartRow}
    (h : ∃ r ∈ t.headers, r.txnlogTransId = row.txnlogTransId) :
    ∃ t', t.execute (.insertTransParts row) = some (1, t') ∧ t'.objects = t.objects ∧
      t'.headers = t.headers ∧ t'.applied = t.applied := by
  simp only [Tables.execute, dif_pos h]
  exact ⟨_, rfl, rfl, rfl, rfl⟩

theorem step_call {jdk : Jdk} {id : JLong} {s : Session} {stmt : Stmt} {rest : List Action}
    {t : Tables} (htodo : s.todo = .execute stmt 1 false :: rest)
    (h : s.current.execute stmt = some (1, t)) :
    Session.step jdk id s .call = some { s with todo := rest, current := t } := by
  have hran : ¬ (1 = 0 ∧ false = true) := by simp
  simp only [Session.step, htodo, Session.perform, if_neg hran, h, if_true]

theorem serve_updateTestSec (k : ℕ) :
    ∃ set row, set.updateCount = testSec.updateCount ∧ set.dbIdUpdated = testSec.dbIdUpdated ∧
      row.txnlogTransId = 7 ∧ (serve Jdk.ascii updateTestSec 7 k {}).trace =
        [.execute (.updateRecords set testSec.rowKey) 1 false,
          .execute (.insertTransParts row) 1 false] :=
  ⟨_, _, rfl, rfl, rfl, serve_trace_served (by decide) 7 k⟩

theorem serve_trailer (k : ℕ) :
    (serve Jdk.ascii ⟨5, .trailer⟩ 7 k {}).trace = [.commit true] :=
  serve_trace_served (by decide) 7 k

/-- One more update goes through. -/
theorem Updated.next {n : ℕ} {s : Session} (h : Updated n s) :
    ∃ s', run (Session.step Jdk.ascii 7) s updateAndCommit = some s' ∧ Updated (n + 1) s' := by
  obtain ⟨v, hobjects, hkey⟩ := h.object
  obtain ⟨set, row, hcount, hdbId, hrow, hcalls⟩ :=
    serve_updateTestSec s.stream.observer.transpartIndex
  obtain ⟨t, hupdate, hobject, hheaders, hlength⟩ := execute_update hobjects hkey hcount hdbId
  have hheader : ∃ r ∈ t.headers, r.txnlogTransId = row.txnlogTransId := by
    rw [hheaders, hrow]
    exact h.header
  obtain ⟨t', hpart, hobjects', hheaders', happlied'⟩ := execute_insertTransParts hheader
  obtain ⟨stream, hmessage, hopen, htxnId⟩ :=
    step_served Jdk.ascii updateTestSec {} h.callOpen h.txnId h.todo (by decide)
  rw [hcalls] at hmessage
  -- the session between the two messages
  let between : Session := { s with stream := stream, todo := [], current := t' }
  obtain ⟨stream', htrailer, hopen', htxnId'⟩ :=
    step_served Jdk.ascii ⟨5, .trailer⟩ {} (s := between) hopen htxnId rfl (by decide)
  rw [serve_trailer] at htrailer
  refine ⟨{ between with stream := stream', committed := t' }, ?_, ?_⟩
  · refine run_cons_eq_some.mpr ⟨_, hmessage, run_cons_eq_some.mpr ⟨_, step_call rfl hupdate, ?_⟩⟩
    refine run_cons_eq_some.mpr ⟨_, step_call rfl hpart, run_cons_eq_some.mpr ⟨_, htrailer, ?_⟩⟩
    exact run_cons_eq_some.mpr ⟨_, rfl, rfl⟩
  · have hlength' : t'.applied.length = n + 1 := by
      rw [happlied', hlength, h.current]
    refine ⟨hopen', htxnId', rfl, ?_, ?_, hlength', hlength'⟩
    · rw [← hobjects'] at hobject
      exact hobject
    · show ∃ r ∈ t'.headers, r.txnlogTransId = 7
      rw [hheaders', hheaders]
      exact h.header

/-- `n` updates, each committed. -/
def updates : ℕ → List Happening
  | 0 => opening
  | n + 1 => updates n ++ updateAndCommit

theorem run_updates (n : ℕ) :
    ∃ s, run (Session.step Jdk.ascii 7) (Session.start (some 7) oneObject) (updates n) = some s ∧
      Updated n s := by
  induction n with
  | zero =>
      refine ⟨_, rfl, ?_⟩
      exact ⟨rfl, rfl, rfl, ⟨_, rfl, rfl⟩, ⟨_, List.mem_singleton_self _, rfl⟩, rfl, rfl⟩
  | succ n ih =>
      obtain ⟨s, hrun, hupdated⟩ := ih
      obtain ⟨s', hrun', hupdated'⟩ := hupdated.next
      exact ⟨s', run_append_eq_some.mpr ⟨s, hrun, hrun'⟩, hupdated'⟩

theorem declared_updates (n : ℕ) : ∀ e ∈ updates n, Declared e := by
  induction n with
  | zero => simp [updates, opening, Declared, transType, TransType.ofValue]
  | succ n ih =>
      have hmore : ∀ e ∈ updateAndCommit, Declared e := by
        simp [updateAndCommit, updateTestSec, Declared, transType, TransType.ofValue]
      exact List.forall_mem_append.mpr ⟨ih, hmore⟩

/-- After `2 ^ 31 + 1` updates the last one is logged under a negative `part_id`. -/
theorem part_id_wraps :
    Fresh 7 oneObject ∧ (∀ e ∈ updates (2 ^ 31 + 1), Declared e) ∧
      ∃ s, run (Session.step Jdk.ascii 7) (Session.start (some 7) oneObject)
          (updates (2 ^ 31 + 1)) = some s ∧ ¬ LogMatches 7 Nat.cast s.committed := by
  refine ⟨fresh_oneObject, declared_updates _, ?_⟩
  obtain ⟨s, hrun, hupdated⟩ := run_updates (2 ^ 31 + 1)
  have hinv := inv_run (by simp) fresh_oneObject (declared_updates _) hrun
  refine ⟨s, hrun, ?_⟩
  rw [hinv.committed.cast_iff, hupdated.committed]
  decide

end AuroraSizing.TransLog

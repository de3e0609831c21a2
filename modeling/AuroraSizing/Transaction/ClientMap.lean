import AuroraSizing.Transaction.AllOrNothing
import AuroraSizing.Transaction.CommittedMap

/-!
# The Go clients' operations on one map

What a transactor's `Insert`, `Update`, `Rename` and `Delete` ask for are operations on the map
that `objects` is. Whenever `getFullObject` reads the committed rows, it reads that map after
the transactions of some of the clients; a later read sees the same clients in the same order,
and perhaps more behind them.
-/

namespace AuroraSizing.Transaction

open Foundation.System

variable {jdk : Jdk}

/-! ## One client -/

/-- What a call asks of the map, with the id that its stream got. An insert and an update store
the time their metadata name, a rename the time `now` of the server. -/
def TransactorCall.mapOp? (jdk : Jdk) (id : JLong) (now : Timestamp) :
    TransactorCall → Option MapOp
  | .insert metadata mem =>
      let md := convertModelMetadataToGrpcMetadata metadata
      (jdk.timestampValueOf md.timeUpdate).map fun time => .insert (md.entry id time mem)
  | .update oldMetadata newMetadata mem =>
      let oldMd := convertModelMetadataToGrpcMetadata oldMetadata
      let newMd := convertModelMetadataToGrpcMetadata newMetadata
      (jdk.timestampValueOf newMd.timeUpdate).map fun time =>
        .update oldMd.rowKey (newMd.entry id time mem)
  | .rename oldMetadata newMetadata =>
      some (.rename (convertModelMetadataToGrpcMetadata oldMetadata).rowKey
        ((convertModelMetadataToGrpcMetadata newMetadata).entry id now []))
  | .delete metadata => some (.delete (convertModelMetadataToGrpcMetadata metadata).rowKey)
  | .endTxn => none

/-- The operations of these calls, in their order, with one id. -/
def AsksMap (jdk : Jdk) (calls : List TransactorCall) (ops : List MapOp) : Prop :=
  ∃ id, List.Forall₂ (fun c op => ∃ now, c.mapOp? jdk id now = some op)
    (calls.filter fun c => !isEnd c) ops

/-- A request's statement is the call of the write method that the client's call asks for. -/
theorem call_of_put {c : TransactorCall} {r : CmdTransactionRequest} {id : JLong}
    {now : Timestamp} {s : Stmt} (hput : c.outbox = .put r)
    (hs : opStmt? jdk r id now = some s) :
    ∃ call : Call jdk, call.stmt = s ∧ c.mapOp? jdk id now = some call.mapOp := by
  cases c with
  | insert metadata mem =>
      cases hput
      obtain ⟨time, hvalid, rfl⟩ := Option.map_eq_some_iff.mp hs
      exact ⟨.insertRec _ id time hvalid, rfl, Option.map_eq_some_iff.mpr ⟨time, hvalid, rfl⟩⟩
  | update oldMetadata newMetadata mem =>
      cases hput
      obtain ⟨time, hvalid, rfl⟩ := Option.map_eq_some_iff.mp hs
      exact ⟨.updateRec _ id time hvalid, rfl, Option.map_eq_some_iff.mpr ⟨time, hvalid, rfl⟩⟩
  | rename oldMetadata newMetadata =>
      cases hput
      obtain rfl := Option.some.inj hs
      exact ⟨.renameDataRecords _ id now, rfl, rfl⟩
  | delete metadata =>
      cases hput
      obtain rfl := Option.some.inj hs
      exact ⟨.deleteDataRecords _, rfl, rfl⟩
  | endTxn => cases hput

/-- The buffer holds the request of every call but `End`. -/
theorem buffer_of_calls (calls : List TransactorCall) :
    List.Forall₂ (fun c r => c.outbox = .put r) (calls.filter fun c => !isEnd c)
      (transactorOf calls).buffer := by
  induction calls using List.reverseRecOn with
  | nil => exact .nil
  | append_singleton calls c ih =>
      have hlast : transactorOf (calls ++ [c]) =
          (c.run (SSClient.beginTxn.run calls)).transactor := by
        rw [transactorOf, Session.run, List.foldl_concat]
        rfl
      rw [hlast, List.filter_append]
      rcases run_of_outbox (SSClient.beginTxn.run calls) c with
        ⟨r, hend, hput, -, hrun⟩ | ⟨hend, -, hrun⟩
      · rw [hrun, List.filter_cons_of_pos (by rw [hend]; rfl)]
        exact List.rel_append ih (.cons hput .nil)
      · rw [hrun, List.filter_cons_of_neg (by rw [hend]; exact Bool.false_ne_true),
          List.filter_nil, List.append_nil]
        exact ih

theorem calls_of_puts {cs : List TransactorCall} {rs : List CmdTransactionRequest} {id : JLong}
    {ws : List Stmt} (hputs : List.Forall₂ (fun c r => c.outbox = .put r) cs rs)
    (hws : List.Forall₂ (fun r s => ∃ now, opStmt? jdk r id now = some s) rs ws) :
    ∃ calls : List (Call jdk), calls.map Call.stmt = ws ∧
      List.Forall₂ (fun c op => ∃ now, c.mapOp? jdk id now = some op) cs
        (calls.map Call.mapOp) := by
  induction hputs generalizing ws with
  | nil =>
      cases hws
      exact ⟨[], rfl, .nil⟩
  | cons hput _ ih =>
      cases hws with
      | cons hstmt hrest =>
          obtain ⟨now, hs⟩ := hstmt
          obtain ⟨call, rfl, hop⟩ := call_of_put hput hs
          obtain ⟨calls, rfl, hops⟩ := ih hrest
          exact ⟨call :: calls, rfl, .cons ⟨now, hop⟩ hops⟩

/-- The statements a client asks for are calls of the write methods, and their operations are
those it asks of the map. -/
theorem calls_of_asked {cs : List TransactorCall} {ws : List Stmt} (h : Asked jdk cs ws) :
    ∃ calls : List (Call jdk), calls.map Call.stmt = ws ∧
      AsksMap jdk cs (calls.map Call.mapOp) := by
  obtain ⟨id, hws⟩ := h
  obtain ⟨calls, hstmts, hops⟩ := calls_of_puts (buffer_of_calls cs) hws
  exact ⟨calls, hstmts, id, hops⟩

/-! ## Many clients -/

/-- A client and the calls of the write methods that its stream made durable. -/
abbrev ClientCalls (jdk : Jdk) := ℕ × List (Call jdk)

def ClientCalls.work (p : ClientCalls jdk) : ℕ × List Stmt := (p.1, p.2.map Call.stmt)

/-- What `getFullObject` reads is the map after the operations of these clients, one client
after another; they serialize the run. -/
structure SharesMap (jdk : Jdk) (clients : ℕ → List TransactorCall) (table₀ : ObjectsTable)
    (s : Server) (serial : List (ClientCalls jdk)) : Prop where
  serializes : Serializes jdk clients table₀ s (serial.map ClientCalls.work)
  asks : ∀ p ∈ serial, AsksMap jdk (clients p.1) (p.2.map Call.mapOp)
  shows : ∃ m, table₀.toMap.applyAll jdk.toLowerCase
      ((serial.flatMap Prod.snd).map Call.mapOp) = some m ∧
    ∃ table, table.rows = s.committed ∧ Shows jdk table m

/-- Work that is asked for is work of calls. -/
theorem exists_clientCalls {clients : ℕ → List TransactorCall} {serial : List (ℕ × List Stmt)}
    (h : ∀ p ∈ serial, Asked jdk (clients p.1) p.2) :
    ∃ cs : List (ClientCalls jdk), cs.map ClientCalls.work = serial ∧
      ∀ p ∈ cs, AsksMap jdk (clients p.1) (p.2.map Call.mapOp) := by
  induction serial with
  | nil => exact ⟨[], rfl, fun p hp => absurd hp List.not_mem_nil⟩
  | cons p serial ih =>
      obtain ⟨calls, hstmts, hops⟩ := calls_of_asked (h p List.mem_cons_self)
      obtain ⟨cs, rfl, hasks⟩ := ih fun q hq => h q (List.mem_cons_of_mem p hq)
      refine ⟨(p.1, calls) :: cs, ?_, ?_⟩
      · rw [List.map_cons, ClientCalls.work, hstmts]
      · intro q hq
        rcases List.mem_cons.mp hq with rfl | hq
        · exact hops
        · exact hasks q hq

theorem Serializes.sharesMap {clients : ℕ → List TransactorCall} {table₀ : ObjectsTable}
    {s : Server} {serial : List (ClientCalls jdk)} (hlower : LowerNames jdk table₀.rows)
    (h : Serializes jdk clients table₀ s (serial.map ClientCalls.work))
    (hasks : ∀ p ∈ serial, AsksMap jdk (clients p.1) (p.2.map Call.mapOp)) :
    SharesMap jdk clients table₀ s serial := by
  refine ⟨h, hasks, ?_⟩
  obtain ⟨table, hall, hrows⟩ := h.rows
  have hwork : (serial.map ClientCalls.work).flatMap Prod.snd =
      (serial.flatMap Prod.snd).map Call.stmt := by
    rw [List.flatMap_map, List.map_flatMap]
    rfl
  rw [hwork] at hall
  obtain ⟨m, hm, hrep⟩ := represents_executeAll (represents_toMap hlower) hall
  obtain ⟨table', hrows', hrep'⟩ := hrep.perm hrows
  exact ⟨m, hm, table', hrows', hrep'.shows⟩

/-- **The Go clients share one atomic map**: one order of the clients whose transactions took
effect, each with the operations it asked for, explains every read of the committed rows during
the run. A read sees the clients up to a point of that order: among them are those that were
told of success by then, and none whose stream was opened later. -/
theorem clients_share_map {table₀ : ObjectsTable} {moves : List Move} {s : Server}
    {clients : ℕ → List TransactorCall} (hlower : LowerNames jdk table₀.rows)
    (hrun : run (Server.step jdk) (Server.start table₀.rows) moves = some s)
    (hindex : Along (Server.step jdk) IndexesHold (Server.start table₀.rows) moves)
    (horderly : Along (Recorded.step jdk) (Orderly jdk) (Recorded.start table₀.rows) moves)
    (hsends : ∀ stream, Sends (clients stream) (deliveriesTo stream moves)) :
    ∃ serial, SharesMap jdk clients table₀ s serial ∧
      ∀ pre post before, moves = pre ++ post →
        run (Server.step jdk) (Server.start table₀.rows) pre = some before →
        ∃ seen, seen <+: serial ∧ SharesMap jdk clients table₀ before seen ∧
          ∀ stream, before.lines stream = none → stream ∉ seen.map Prod.fst := by
  have hserial := serializes_run hrun hindex horderly hsends
  obtain ⟨serial, hcalls, hasks⟩ := exists_clientCalls hserial.whole
  refine ⟨serial, (hcalls ▸ hserial).sharesMap hlower hasks, ?_⟩
  rintro pre post before rfl hpre
  obtain ⟨log, hlog⟩ := Recorded.run_of_server (s := Recorded.start table₀.rows) hpre
  have hsends' : ∀ stream, Sends (clients stream) (deliveriesTo stream pre) := fun stream =>
    (hsends stream).before (deliveriesTo_grows stream pre post)
  have hbefore := serializes_run hpre hindex.of_append horderly.of_append hsends'
  -- what is committed by then is a first part of all that will be
  have htake := List.prefix_iff_eq_take.mp (commitOrder_grows hlog post)
  rw [← hcalls, ← List.map_take] at htake
  set seen := serial.take (commitOrder jdk table₀.rows pre).length
  refine ⟨seen, List.take_prefix _ _, ?_, ?_⟩
  · exact (htake ▸ hbefore).sharesMap hlower fun p hp => hasks p (List.mem_of_mem_take hp)
  · intro stream hnone hmem
    have hfst : seen.map Prod.fst = (commitOrder jdk table₀.rows pre).map Prod.fst := by
      rw [htake, List.map_map]
      rfl
    rw [hfst] at hmem
    exact notMem_commitOrder hlog horderly.of_append hnone hmem

/-- Every read of the two deletes sees the row, or one of the deletes. -/
theorem deletesInOrder_map :
    ∃ s : Server, s.committed = [] ∧
      ∃ serial, SharesMap Jdk.ascii Server.deleteClients Server.testTable s serial ∧
        ∀ pre post before, Server.deletesInOrder = pre ++ post →
          run (Server.step Jdk.ascii) (Server.start Server.testTable.rows) pre = some before →
          ∃ seen, seen <+: serial ∧
            SharesMap Jdk.ascii Server.deleteClients Server.testTable before seen ∧
            ∀ stream, before.lines stream = none → stream ∉ seen.map Prod.fst := by
  have hrun : run (Server.step Jdk.ascii) (Server.start Server.testTable.rows)
      Server.deletesInOrder = some _ := rfl
  have hlower : LowerNames Jdk.ascii Server.testTable.rows := by
    intro r hr
    obtain rfl := List.mem_singleton.mp hr
    decide
  refine ⟨_, ?_, clients_share_map hlower hrun Server.indexes_deletesInOrder
    Server.orderly_deletesInOrder Server.sends_deletesInOrder⟩
  decide

end AuroraSizing.Transaction

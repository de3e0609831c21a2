import AuroraSizing.Foundation.Ledger
import AuroraSizing.Transaction.Closing
import AuroraSizing.Transaction.Outcome
import AuroraSizing.Transaction.TransLog
import AuroraSizing.Transaction.TransactorRuns

/-!
# What the stream of a transactor commits

`End` sends a header, the buffered operations and a trailer. As long as the call is open every
message was served, so the trailer finds all operations open and commits them. A call that ends
before has committed nothing.
-/

namespace AuroraSizing.Transaction

open Foundation.Journal

/-! ## The journal of `objects` -/

/-- An entry about a row of `objects`, or the end of a transaction. -/
def onObjects : Entry Stmt → Bool
  | .write (.insertTransHeader _) | .write (.insertTransParts _) => false
  | .write _ | .commit | .abort => true

/-- What the calls do to `objects`. -/
def objectJournal (trace : List Action) : List (Entry Stmt) := (entriesOf trace).filter onObjects

theorem objectJournal_append (t u : List Action) :
    objectJournal (t ++ u) = objectJournal t ++ objectJournal u := by
  rw [objectJournal, entriesOf_append, List.filter_append]
  rfl

theorem objectJournal_grows {t u : List Action} (h : t <+: u) :
    objectJournal t <+: objectJournal u := by
  obtain ⟨rest, rfl⟩ := h
  rw [objectJournal_append]
  exact List.prefix_append _ _

theorem objectJournal_of_quiet {t : List Action} (h : entriesOf t = []) : objectJournal t = [] := by
  rw [objectJournal, h]
  rfl

/-- What a served message does to `objects`. -/
def servedEntries (jdk : Jdk) (id : JLong) (m : Message) : List (Entry Stmt) :=
  (opStmt? jdk m.1 id m.2.now).toList.map Entry.write ++ (serveEnding m.1 m.2).entries

theorem onObjects_op {jdk : Jdk} {r : CmdTransactionRequest} {id : JLong} {now : Timestamp}
    {s : Stmt} (h : opStmt? jdk r id now = some s) : onObjects (.write s) = true := by
  unfold opStmt? at h
  split at h
  · obtain ⟨_, -, rfl⟩ := Option.map_eq_some_iff.mp h
    rfl
  · obtain ⟨_, -, rfl⟩ := Option.map_eq_some_iff.mp h
    rfl
  · cases h
    rfl
  · cases h
    rfl
  · cases h
  · cases h
  · cases h

theorem not_onObjects_log {r : CmdTransactionRequest} {id : JLong} {k : ℕ} {now : Timestamp}
    {s : Stmt} (h : logStmt? r id k now = some s) : onObjects (.write s) = false := by
  unfold logStmt? at h
  split at h
  · cases h
    rfl
  · cases h
  · cases h
    rfl

theorem filter_messageStmts (jdk : Jdk) (r : CmdTransactionRequest) (id : JLong) (k : ℕ)
    (now : Timestamp) :
    ((messageStmts jdk r id k now).map Entry.write).filter onObjects =
      (opStmt? jdk r id now).toList.map Entry.write := by
  rw [messageStmts, List.map_append, List.filter_append]
  cases hop : opStmt? jdk r id now with
  | none =>
      cases hlog : logStmt? r id k now with
      | none => rfl
      | some l => simp [not_onObjects_log hlog]
  | some s =>
      cases hlog : logStmt? r id k now with
      | none => simp [onObjects_op hop]
      | some l => simp [onObjects_op hop, not_onObjects_log hlog]

/-! ## One callback -/

/-- Whether the call goes on after the callback. -/
def goesOn (run : Jdbc Unit) : Bool :=
  (run.trace.filterMap Action.response?).isEmpty && run.result.isOk

/-- Without an id nothing is served. -/
theorem onNext_unread (jdk : Jdk) (obs : Observer) (r : CmdTransactionRequest) {o : Outcomes}
    {e : Throwable} (hread : (obs.readTxnId o).result = .error e) :
    Entry.commit ∉ objectJournal (obs.onNext jdk r o).2.trace ∧
      goesOn (obs.onNext jdk r o).2 = false := by
  have hunknown : obs.txnId = none := by
    cases hid : obs.txnId with
    | none => rfl
    | some id =>
        rw [Observer.readTxnId_known hid] at hread
        cases hread
  simp only [Observer.onNext, hread, Observer.handle, Jdbc.throw]
  cases e with
  | sqlException =>
      have hresult := (Observer.onError_spec jdk obs o).2
      rw [Observer.answerId_unknown hunknown] at hresult
      refine ⟨?_, ?_⟩
      · intro hmem
        have hmem := List.mem_of_mem_filter hmem
        rw [List.nil_append, Observer.onError_entries] at hmem
        split at hmem <;> simp at hmem
      · rw [goesOn, hresult]
        exact Bool.and_false _
  | _ => exact ⟨List.not_mem_nil, rfl⟩

/-- A message that is not served ends in no commit. -/
theorem serve_no_commit {jdk : Jdk} {r : CmdTransactionRequest} {o : Outcomes}
    (hv : verdict jdk r o ≠ .served) (id : JLong) (k : ℕ) :
    Entry.commit ∉ entriesOf (serve jdk r id k o).trace := by
  intro hmem
  rw [(serve_spec jdk r id k o).2, Block.entries, List.mem_append] at hmem
  rcases hmem with hwrite | hend
  · exact commit_notMem_writes _ hwrite
  · unfold serveEnding at hend
    split at hend
    · rename_i htrailer
      exact hv (by simp [verdict, opVerdict, logVerdict, htrailer])
    · cases hend

theorem objectJournal_served {jdk : Jdk} {r : CmdTransactionRequest} {o : Outcomes}
    (hv : verdict jdk r o = .served) (id : JLong) (k : ℕ) :
    objectJournal (serve jdk r id k o).trace = servedEntries jdk id (r, o) := by
  rw [objectJournal, (serve_spec jdk r id k o).2, messageWrites_served hv, Block.entries,
    List.filter_append, filter_messageStmts, servedEntries]
  unfold serveEnding
  split <;> rfl

/-- A message is served, or the call ends without a commit. -/
theorem onNext_cases (jdk : Jdk) (obs : Observer) (r : CmdTransactionRequest) (o : Outcomes) :
    (∃ id, (obs.readTxnId o).result = .ok id ∧ verdict jdk r o = .served ∧
      (obs.onNext jdk r o).1.txnId = some id ∧
      objectJournal (obs.onNext jdk r o).2.trace = servedEntries jdk id (r, o) ∧
      goesOn (obs.onNext jdk r o).2 = true) ∨
    (Entry.commit ∉ objectJournal (obs.onNext jdk r o).2.trace ∧
      goesOn (obs.onNext jdk r o).2 = false) := by
  cases hread : (obs.readTxnId o).result with
  | error e => exact .inr (onNext_unread jdk obs r hread)
  | ok id =>
      obtain ⟨hobs, hrun⟩ := Observer.onNext_spec jdk obs r o hread
      have hresult := (serve_spec jdk r id obs.transpartIndex o).1
      rw [hobs, hrun]
      cases hv : verdict jdk r o with
      | served =>
          refine .inl ⟨id, rfl, rfl, rfl, objectJournal_served hv id _, ?_⟩
          rw [goesOn, serve_responses, Verdict.isOk_eq, hresult, hv]
          rfl
      | escaped =>
          have hnot : verdict jdk r o ≠ .served := by
            rw [hv]
            exact Verdict.noConfusion
          refine .inr ⟨fun hmem => serve_no_commit hnot id _ (List.mem_of_mem_filter hmem), ?_⟩
          rw [hv] at hresult
          rw [goesOn, Verdict.isOk_eq, hresult]
          exact Bool.and_false _
      | failed =>
          have hnot : verdict jdk r o ≠ .served := by
            rw [hv]
            exact Verdict.noConfusion
          have hknown : ({ obs with txnId := some id } : Observer).txnId = some id := rfl
          refine .inr ⟨?_, ?_⟩
          · intro hmem
            have hmem := List.mem_of_mem_filter hmem
            rw [entriesOf_append, List.mem_append, Observer.onError_entries] at hmem
            rcases hmem with hserve | hrollback
            · exact serve_no_commit hnot id _ hserve
            · split at hrollback <;> simp at hrollback
          · have hsurvives := Observer.callback_survives jdk _ hknown (.onError, o)
            rw [goesOn, List.filterMap_append, serve_responses, List.nil_append]
            exact hsurvives

/-- A cancelled call commits nothing. -/
theorem onError_no_commit (jdk : Jdk) (obs : Observer) (o : Outcomes) :
    Entry.commit ∉ objectJournal (obs.callback jdk (.onError, o)).2.trace := by
  intro hmem
  have hmem := List.mem_of_mem_filter hmem
  rw [Observer.callback, Observer.onError_entries] at hmem
  split at hmem <;> simp at hmem

/-- The end of a call writes nothing. -/
theorem end_no_write (jdk : Jdk) (obs : Observer) {e : Event} {id : JLong}
    (h : obs.txnId = some id) (hend : e.1 = .onCompleted ∨ e.1 = .onError) (s : Stmt) :
    Entry.write s ∉ objectJournal (obs.callback jdk e).2.trace := by
  intro hmem
  have hmem := List.mem_of_mem_filter hmem
  rw [Observer.callback_entries jdk obs h] at hmem
  obtain ⟨cb, o⟩ := e
  have hwrites : eventWrites jdk id obs.transpartIndex (cb, o) = [] := by
    rcases hend with rfl | rfl <;> rfl
  rw [eventBlock, hwrites, Block.entries, List.map_nil, List.nil_append] at hmem
  cases hending : eventEnding jdk (cb, o) <;> rw [hending] at hmem <;>
    simp [Ending.entries] at hmem

/-! ## An open call -/

/-- The call is still open after a callback that has served its message. -/
theorem open_deliver {jdk : Jdk} {st : Stream} {e : Event}
    (hopen : (st.deliver jdk e).callOpen = true) :
    st.callOpen = true ∧ ∃ r o id, e = (.onNext r, o) ∧
      (st.observer.readTxnId o).result = .ok id ∧ verdict jdk r o = .served ∧
      (st.deliver jdk e).observer.txnId = some id ∧ (st.deliver jdk e).sent = st.sent ∧
      objectJournal (st.deliver jdk e).trace =
        objectJournal st.trace ++ servedEntries jdk id (r, o) := by
  have hbefore : st.callOpen = true := by
    by_contra hclosed
    rw [(Stream.deliver_closed jdk st e (by simpa using hclosed)).1] at hopen
    cases hopen
  refine ⟨hbefore, ?_⟩
  obtain ⟨cb, o⟩ := e
  cases cb with
  | onCompleted =>
      rw [Stream.callOpen_onCompleted] at hopen
      cases hopen
  | onError => simp [Stream.deliver, Stream.openFor] at hopen
  | onNext r =>
      have hgoes : goesOn (st.observer.onNext jdk r o).2 = true := by
        simpa [Stream.deliver, Stream.openFor, hbefore, Observer.callback, goesOn] using hopen
      rcases onNext_cases jdk st.observer r o with ⟨id, hread, hv, hid, hentries, -⟩ | ⟨-, hends⟩
      · have hnone : (st.observer.onNext jdk r o).2.trace.filterMap Action.response? = [] := by
          simp only [goesOn, Bool.and_eq_true, List.isEmpty_iff] at hgoes
          exact hgoes.1
        refine ⟨r, o, id, rfl, hread, hv, hid, ?_, ?_⟩
        · simp [Stream.deliver, Observer.callback, hnone]
        · rw [← hentries, ← objectJournal_append]
          rfl
      · rw [hends] at hgoes
        cases hgoes

/-- Every callback of an open call has served its message. -/
theorem open_journal (jdk : Jdk) (resultSet : Option JLong) (es : List Event)
    (hopen : ((Stream.start resultSet).run jdk es).callOpen = true) :
    ∃ ms : List Message, es = events ms none ∧
      ((Stream.start resultSet).run jdk es).sent = [] ∧
      (∀ m ∈ ms, verdict jdk m.1 m.2 = .served) ∧
      ∃ id, (ms ≠ [] → ((Stream.start resultSet).run jdk es).observer.txnId = some id) ∧
        objectJournal ((Stream.start resultSet).run jdk es).trace =
          ms.flatMap (servedEntries jdk id) := by
  induction es using List.reverseRecOn with
  | nil =>
      refine ⟨[], rfl, rfl, ?_, 0, fun h => absurd rfl h, rfl⟩
      exact fun _ hm => absurd hm List.not_mem_nil
  | append_singleton es e ih =>
      set st := (Stream.start resultSet).run jdk es
      have hrun : (Stream.start resultSet).run jdk (es ++ [e]) = st.deliver jdk e :=
        Stream.run_append jdk _ es [e]
      rw [hrun] at hopen ⊢
      obtain ⟨hbefore, r, o, id', rfl, hread, hv, hid', hsame, hlast⟩ := open_deliver hopen
      obtain ⟨ms, hes, hsent, hserved, id, hid, hjournal⟩ := ih hbefore
      -- the observer reads its id once
      have hid_eq : ms ≠ [] → id' = id := by
        intro hne
        rw [Observer.readTxnId_known (hid hne)] at hread
        exact (Except.ok.inj hread).symm
      refine ⟨ms ++ [(r, o)], ?_, hsame.trans hsent, ?_, id', fun _ => hid', ?_⟩
      · rw [hes]
        simp [events]
      · intro m hm
        rcases List.mem_append.mp hm with hm | hm
        · exact hserved m hm
        · obtain rfl := List.mem_singleton.mp hm
          exact hv
      · rw [hlast, hjournal, List.flatMap_append, List.flatMap_singleton]
        rcases ms with _ | ⟨m, ms⟩
        · rfl
        · rw [hid_eq (List.cons_ne_nil m ms)]

/-! ## The stream of a transactor -/

/-- The transactor after these calls; the next `End` sends its requests. -/
def transactorOf (calls : List TransactorCall) : GrpcTransactor :=
  (SSClient.beginTxn.run calls).transactor

/-- The statements of the buffered operations, each with the one id of the stream. -/
def Asked (jdk : Jdk) (calls : List TransactorCall) (ws : List Stmt) : Prop :=
  ∃ id, List.Forall₂ (fun r s => ∃ now, opStmt? jdk r id now = some s)
    (transactorOf calls).buffer ws

/-- The callbacks of a stream that `End` feeds: its requests as far as they came, and the
half-close behind all of them. -/
def Sends (calls : List TransactorCall) (es : List Event) : Prop :=
  ∃ ms fin, es = events ms fin ∧ ms.map Prod.fst <+: (transactorOf calls).requests ∧
    ∀ o, fin = some (.halfClose, o) → ms.map Prod.fst = (transactorOf calls).requests

theorem operations_of_calls (calls : List TransactorCall) :
    ∀ r ∈ (transactorOf calls).buffer, isPart r = true ∧ transType r ≠ .unrecognized := by
  induction calls using List.reverseRecOn with
  | nil => exact fun _ hr => absurd hr List.not_mem_nil
  | append_singleton calls c ih =>
      have hlast : transactorOf (calls ++ [c]) =
          (c.run (SSClient.beginTxn.run calls)).transactor := by
        rw [transactorOf, Session.run, List.foldl_concat]
        rfl
      have happend : ∀ req, isPart req = true ∧ transType req ≠ .unrecognized →
          ∀ r ∈ (transactorOf calls).buffer ++ [req],
            isPart r = true ∧ transType r ≠ .unrecognized := by
        intro req hreq r hr
        rcases List.mem_append.mp hr with hr | hr
        · exact ih r hr
        · obtain rfl := List.mem_singleton.mp hr
          exact hreq
      rw [hlast]
      cases c with
      | insert | rename | update | delete =>
          exact happend _ ⟨rfl, by simp [transType, TransType.ofValue]⟩
      | endTxn => exact ih

/-- The served operations are the statements asked for. -/
theorem operations_served {jdk : Jdk} (id : JLong) {ms : List Message}
    (hserved : ∀ m ∈ ms, verdict jdk m.1 m.2 = .served)
    (hops : ∀ m ∈ ms, isPart m.1 = true ∧ transType m.1 ≠ .unrecognized) :
    ∃ ws, List.Forall₂ (fun r s => ∃ now, opStmt? jdk r id now = some s) (ms.map Prod.fst) ws ∧
      ms.flatMap (servedEntries jdk id) = ws.map Entry.write := by
  induction ms with
  | nil => exact ⟨[], .nil, rfl⟩
  | cons m ms ih =>
      obtain ⟨ws, hws, hentries⟩ := ih (fun n hn => hserved n (List.mem_cons_of_mem m hn))
        (fun n hn => hops n (List.mem_cons_of_mem m hn))
      obtain ⟨hpart, hdeclared⟩ := hops m List.mem_cons_self
      obtain ⟨s, hs, -⟩ :=
        TransLog.messageStmts_part (hserved m List.mem_cons_self) hpart hdeclared id 0
      refine ⟨s :: ws, .cons ⟨_, hs⟩ hws, ?_⟩
      have hkeep : serveEnding m.1 m.2 = .keep := by
        refine if_neg fun htrailer => ?_
        simp [isPart, htrailer.1] at hpart
      rw [List.flatMap_cons, hentries, servedEntries, hs, hkeep]
      rfl

/-- Served to the end, the operations are committed. -/
theorem journal_of_all {jdk : Jdk} (id : JLong) {calls : List TransactorCall} {ms : List Message}
    (hserved : ∀ m ∈ ms, verdict jdk m.1 m.2 = .served)
    (hall : ms.map Prod.fst = (transactorOf calls).requests) :
    ∃ ws, Asked jdk calls ws ∧
      ms.flatMap (servedEntries jdk id) = ws.map Entry.write ++ [.commit] := by
  obtain ⟨⟨header, o⟩, rest, rfl, hheader, hrest⟩ := List.map_eq_cons_iff.mp hall
  obtain ⟨bs, last, rfl, hbs, hlast⟩ := List.map_eq_append_iff.mp hrest
  obtain ⟨⟨trailer, o'⟩, _, rfl, htrailer, hnil⟩ := List.map_eq_cons_iff.mp hlast
  obtain rfl := List.map_eq_nil_iff.mp hnil
  have hmem : ∀ m ∈ bs, m ∈ (header, o) :: (bs ++ [(trailer, o')]) := fun m hm =>
    List.mem_cons_of_mem _ (List.mem_append_left _ hm)
  obtain ⟨ws, hws, hentries⟩ := operations_served id (fun m hm => hserved m (hmem m hm))
    (fun m hm => operations_of_calls calls m.1 (hbs ▸ List.mem_map_of_mem hm))
  refine ⟨ws, ⟨id, hbs ▸ hws⟩, ?_⟩
  subst hheader htrailer
  have hcommit : o'.commit = true := by
    have hv := hserved (⟨5, .trailer⟩, o') (by simp)
    exact (verdict_trailer rfl).mp hv
  rw [List.flatMap_cons, List.flatMap_append, hentries, List.flatMap_singleton, servedEntries,
    servedEntries, serveEnding, serveEnding, hcommit]
  rfl

/-- Before the trailer nothing is committed. -/
theorem journal_of_some {jdk : Jdk} (id : JLong) {calls : List TransactorCall} {ms : List Message}
    (hpre : ms.map Prod.fst <+: (transactorOf calls).requests)
    (hsome : ms.map Prod.fst ≠ (transactorOf calls).requests) :
    Entry.commit ∉ ms.flatMap (servedEntries jdk id) := by
  have hbefore : ms.map Prod.fst <+:
      ⟨0, .header { transName := "abc", transType := 0 }⟩ :: (transactorOf calls).buffer := by
    rcases List.prefix_concat_iff.mp hpre with hall | hbefore
    · exact absurd hall hsome
    · exact hbefore
  intro hmem
  obtain ⟨m, hm, hentry⟩ := List.mem_flatMap.mp hmem
  rcases List.mem_append.mp hentry with hwrite | hend
  · exact commit_notMem_writes _ hwrite
  · have hkeep : serveEnding m.1 m.2 = .keep := by
      refine if_neg fun htrailer => ?_
      rcases List.mem_cons.mp (hbefore.subset (List.mem_map_of_mem hm)) with hheader | hop
      · rw [hheader] at htrailer
        exact absurd htrailer.1 (by decide)
      · have hpart := (operations_of_calls calls m.1 hop).1
        simp [isPart, htrailer.1] at hpart
    rw [hkeep] at hend
    cases hend

/-- What a stream of one `End` comes to. -/
inductive StreamEnd (jdk : Jdk) (calls : List TransactorCall) (st : Stream) : Prop
  | nothing (journal : Entry.commit ∉ objectJournal st.trace)
      (sent : ∀ ack txnId, .msgOnSuccess ack txnId ∉ st.sent)
  | everything (ws : List Stmt) (rest : List (Entry Stmt)) (asked : Asked jdk calls ws)
      (journal : objectJournal st.trace = ws.map Entry.write ++ .commit :: rest)
      (closed : ∀ s, Entry.write s ∉ rest) (sent : ∀ ack txnId, .msgOnFailure ack txnId ∉ st.sent)

theorem received_append (es fs : List Event) :
    Rpc.received (es ++ fs) = Rpc.received es ++ Rpc.received fs := List.filterMap_append

theorem received_events (ms : List Message) (fin : Option (Terminal × Outcomes)) :
    Rpc.received (events ms fin) = ms.map Prod.fst := by
  have hmessages : Rpc.received (ms.map fun q => (.onNext q.1, q.2)) = ms.map Prod.fst := by
    induction ms with
    | nil => rfl
    | cons m ms ih => exact congrArg (m.1 :: ·) ih
  have hend : Rpc.received (fin.map fun t => (t.1.callback, t.2)).toList = [] := by
    rcases fin with _ | ⟨_ | _, _⟩ <;> rfl
  rw [events, received_append, hmessages, hend, List.append_nil]

theorem mem_events_none {ms : List Message} {e : Event} (h : e ∈ events ms none) :
    ∃ m ∈ ms, e = (.onNext m.1, m.2) := by
  rw [events, Option.map_none, Option.toList_none, List.append_nil] at h
  obtain ⟨m, hm, rfl⟩ := List.mem_map.mp h
  exact ⟨m, hm, rfl⟩

/-- The half-close is there only behind all requests. -/
theorem Sends.halfClosed {calls : List TransactorCall} {es : List Event} (h : Sends calls es)
    {e : Event} (he : e ∈ es) (hend : e.1 = .onCompleted) :
    Rpc.received es = (transactorOf calls).requests := by
  obtain ⟨ms, fin, rfl, -, hall⟩ := h
  rw [received_events]
  rcases List.mem_append.mp he with hmessage | hfin
  · obtain ⟨m, -, rfl⟩ := List.mem_map.mp hmessage
    cases hend
  · rcases fin with _ | ⟨_ | _, o⟩
    · cases hfin
    · exact hall o rfl
    · obtain rfl := List.mem_singleton.mp hfin
      cases hend

theorem Sends.received_prefix {calls : List TransactorCall} {es : List Event}
    (h : Sends calls es) : Rpc.received es <+: (transactorOf calls).requests := by
  obtain ⟨ms, fin, rfl, hpre, -⟩ := h
  rw [received_events]
  exact hpre

variable {jdk : Jdk} {calls : List TransactorCall} {resultSet : Option JLong} {es : List Event}

/-- The stream while its call is open. -/
theorem streamEnd_open (hsends : Sends calls es)
    (hopen : ((Stream.start resultSet).run jdk es).callOpen = true) :
    StreamEnd jdk calls ((Stream.start resultSet).run jdk es) := by
  obtain ⟨ms, rfl, hsent, hserved, id, -, hjournal⟩ := open_journal jdk resultSet es hopen
  have hpre := hsends.received_prefix
  rw [received_events] at hpre
  by_cases hall : ms.map Prod.fst = (transactorOf calls).requests
  · obtain ⟨ws, hasked, hws⟩ := journal_of_all id hserved hall
    refine .everything ws [] hasked (hjournal.trans hws) (fun s => List.not_mem_nil) ?_
    intro ack txnId hmem
    rw [hsent] at hmem
    exact List.not_mem_nil hmem
  · refine .nothing ?_ ?_
    · rw [hjournal]
      exact journal_of_some id hpre hall
    · intro ack txnId hmem
      rw [hsent] at hmem
      exact List.not_mem_nil hmem

/-- A stream that was not half-closed has no success to tell of. -/
theorem no_success_sent (h : ∀ e ∈ es, e.1 ≠ .onCompleted) (ack txnId : JInt) :
    .msgOnSuccess ack txnId ∉ ((Stream.start resultSet).run jdk es).sent := by
  intro hmem
  obtain ⟨e, he, hend⟩ := onCompleted_of_success hmem
  exact h e he hend

/-- A stream whose messages were all served has no failure to tell of. -/
theorem no_failure_sent (h : ∀ r o, (.onNext r, o) ∈ es → verdict jdk r o = .served)
    (ack txnId : JInt) : .msgOnFailure ack txnId ∉ ((Stream.start resultSet).run jdk es).sent := by
  intro hmem
  obtain ⟨_, _, _, pre, r, o, post, rfl, -, hfailed, -⟩ :=
    failure_sent_iff.mp ⟨ack, txnId, hmem⟩
  rw [h r o (by simp)] at hfailed
  cases hfailed

section callback

variable {ms : List Message} {cb : Callback} {o : Outcomes} {id : JLong}

theorem messages_of_events (hcb : cb ≠ .onCompleted) :
    ∀ e ∈ events ms none ++ [(cb, o)], e.1 ≠ .onCompleted := by
  intro e he
  rcases List.mem_append.mp he with he | he
  · obtain ⟨m, -, rfl⟩ := mem_events_none he
    exact Callback.noConfusion
  · rw [List.mem_singleton.mp he]
    exact hcb

/-- What one more callback does comes behind the messages that were served. -/
theorem journal_concat (hjournal : objectJournal ((Stream.start resultSet).run jdk es).trace =
      ms.flatMap (servedEntries jdk id)) (e : Event) :
    objectJournal ((Stream.start resultSet).run jdk (es ++ [e])).trace =
      ms.flatMap (servedEntries jdk id) ++
        objectJournal (((Stream.start resultSet).run jdk es).observer.callback jdk e).2.trace := by
  rw [Stream.run_append, ← hjournal, ← objectJournal_append]
  rfl

/-- The call ends with all requests served. -/
theorem streamEnd_of_all (hserved : ∀ m ∈ ms, verdict jdk m.1 m.2 = .served)
    (hall : ms.map Prod.fst = (transactorOf calls).requests)
    (hend : cb = .onCompleted ∨ cb = .onError)
    (hid : ((Stream.start resultSet).run jdk (events ms none)).observer.txnId = some id)
    (hjournal : objectJournal ((Stream.start resultSet).run jdk (events ms none)).trace =
      ms.flatMap (servedEntries jdk id)) :
    StreamEnd jdk calls ((Stream.start resultSet).run jdk (events ms none ++ [(cb, o)])) := by
  obtain ⟨ws, hasked, hws⟩ := journal_of_all id hserved hall
  have hmessage : ∀ r o', (.onNext r, o') ∈ events ms none ++ [(cb, o)] →
      verdict jdk r o' = .served := by
    intro r o' hmem
    rcases List.mem_append.mp hmem with hmem | hmem
    · obtain ⟨m, hm, heq⟩ := mem_events_none hmem
      cases heq
      exact hserved m hm
    · cases List.mem_singleton.mp hmem
      rcases hend with hend | hend <;> cases hend
  have hquiet := @end_no_write jdk _ (cb, o) id hid hend
  refine .everything ws _ hasked ?_ hquiet (no_failure_sent hmessage)
  rw [journal_concat hjournal, hws, List.append_assoc]
  rfl

/-- The call ends before that. -/
theorem streamEnd_of_some (hpre : ms.map Prod.fst <+: (transactorOf calls).requests)
    (hsome : ms.map Prod.fst ≠ (transactorOf calls).requests) (hcb : cb ≠ .onCompleted)
    (hjournal : objectJournal ((Stream.start resultSet).run jdk (events ms none)).trace =
      ms.flatMap (servedEntries jdk id))
    (hcommit : Entry.commit ∉ objectJournal
      (((Stream.start resultSet).run jdk (events ms none)).observer.callback jdk (cb, o)).2.trace) :
    StreamEnd jdk calls ((Stream.start resultSet).run jdk (events ms none ++ [(cb, o)])) := by
  refine .nothing ?_ (no_success_sent (messages_of_events hcb))
  rw [journal_concat hjournal, List.mem_append, not_or]
  exact ⟨journal_of_some id hpre hsome, hcommit⟩

/-- The stream after the callback that its call was open for. -/
theorem streamEnd_concat (hsends : Sends calls (es ++ [(cb, o)]))
    (hbefore : ((Stream.start resultSet).run jdk es).callOpen = true) :
    StreamEnd jdk calls ((Stream.start resultSet).run jdk (es ++ [(cb, o)])) := by
  obtain ⟨ms, rfl, -, hserved, id, hid, hjournal⟩ := open_journal jdk resultSet es hbefore
  have hreceived := hsends.received_prefix
  rw [received_append, received_events] at hreceived
  have hpre := (List.prefix_append _ _).trans hreceived
  by_cases hall : ms.map Prod.fst = (transactorOf calls).requests
  · -- all requests are served, so this is the end of the call
    have hne : ms ≠ [] := by
      rintro rfl
      cases hall
    have hend : cb = .onCompleted ∨ cb = .onError := by
      cases cb with
      | onNext r =>
          have hle := hreceived.length_le
          rw [hall, List.length_append] at hle
          exact absurd hle (Nat.not_succ_le_self _)
      | onCompleted => exact .inl rfl
      | onError => exact .inr rfl
    exact streamEnd_of_all hserved hall hend (hid hne) hjournal
  · cases cb with
    | onCompleted =>
        -- the half-close comes behind all requests
        refine absurd ?_ hall
        have hclosed := hsends.halfClosed (List.mem_append_right _ (List.mem_singleton_self _)) rfl
        rw [received_append, received_events] at hclosed
        rwa [← List.append_nil (ms.map Prod.fst)]
    | onError =>
        exact streamEnd_of_some hpre hall Callback.noConfusion hjournal
          (onError_no_commit jdk _ o)
    | onNext r =>
        have hcases := onNext_cases jdk
          ((Stream.start resultSet).run jdk (events ms none)).observer r o
        rcases hcases with ⟨_, -, -, -, -, hgoes⟩ | ⟨hcommit, -⟩
        · refine streamEnd_open hsends ?_
          rw [Stream.run_append]
          simpa [Stream.deliver, Stream.openFor, hbefore, Observer.callback, goesOn] using hgoes
        · exact streamEnd_of_some hpre hall Callback.noConfusion hjournal hcommit

end callback

/-! ## A closed connection -/

/-- What the driver answers once the connection is closed. -/
def Inert (o : Outcomes) : Prop :=
  o.op.rows = 0 ∧ o.log.rows = 0 ∧ o.commit = false ∧ o.rollback = false

instance (o : Outcomes) : Decidable (Inert o) := inferInstanceAs (Decidable (_ ∧ _ ∧ _ ∧ _))

/-- Nothing is done to the database once the connection is closed. -/
def QuietOnceClosed (trace : List Action) : Prop :=
  ∀ t u, trace = t ++ u → 0 < t.countP Action.isClose → entriesOf u = []

theorem entriesOf_of_append {t u : List Action} (h : entriesOf (t ++ u) = []) :
    entriesOf t = [] ∧ entriesOf u = [] := by
  rwa [entriesOf_append, List.append_eq_nil_iff] at h

theorem QuietOnceClosed.append {t u : List Action} (h : QuietOnceClosed t)
    (hu : entriesOf u = []) : QuietOnceClosed (t ++ u) := by
  intro v w heq hclosed
  rcases List.append_eq_append_iff.mp heq with ⟨x, rfl, rfl⟩ | ⟨x, rfl, rfl⟩
  · exact (entriesOf_of_append hu).2
  · rw [entriesOf_append, h v x rfl hclosed, hu]
    rfl

theorem QuietOnceClosed.append_left {t u : List Action} (h : QuietOnceClosed u)
    (ht : t.countP Action.isClose = 0) : QuietOnceClosed (t ++ u) := by
  intro v w heq hclosed
  rcases List.append_eq_append_iff.mp heq with ⟨x, rfl, rfl⟩ | ⟨x, rfl, rfl⟩
  · rw [List.countP_append, ht, Nat.zero_add] at hclosed
    exact h x w rfl hclosed
  · rw [List.countP_append] at ht
    exact absurd (Nat.eq_zero_of_add_eq_zero_right ht) (Nat.ne_of_gt hclosed)

theorem QuietOnceClosed.of_open {t : List Action} (ht : t.countP Action.isClose = 0) :
    QuietOnceClosed t := by
  intro v w heq hclosed
  rw [heq, List.countP_append] at ht
  exact absurd (Nat.eq_zero_of_add_eq_zero_right ht) (Nat.ne_of_gt hclosed)

/-- Whatever the first call is, the others let go of the connection. -/
theorem quiet_end {a : Action} {rest : List Action} (hrest : LetsGo rest) :
    QuietOnceClosed (a :: rest) := by
  intro v w heq hclosed
  rcases v with _ | ⟨b, v⟩
  · cases hclosed
  · obtain ⟨-, rfl⟩ := List.cons.inj heq
    exact LetsGo.entries fun c hc => hrest c (List.mem_append_right v hc)

/-- `onNext` serves its message as far as it comes, and may go on with `onError`. -/
theorem onNext_trace (jdk : Jdk) (obs : Observer) (r : CmdTransactionRequest) (o : Outcomes) :
    ∃ served fails : List Action, (obs.onNext jdk r o).2.trace = served ++ fails ∧
      served.countP Action.isClose = 0 ∧ (Inert o → entriesOf served = []) ∧
      (fails = [] ∨ ∃ obs' : Observer, fails = (obs'.onError jdk o).trace) := by
  cases hread : (obs.readTxnId o).result with
  | error e =>
      cases e with
      | sqlException =>
          refine ⟨[], (obs.onError jdk o).trace, ?_, rfl, fun _ => rfl, .inr ⟨obs, rfl⟩⟩
          simp only [Observer.onNext, hread, Observer.handle, Jdbc.throw]
      | _ =>
          refine ⟨[], [], ?_, rfl, fun _ => rfl, .inl rfl⟩
          simp only [Observer.onNext, hread, Observer.handle, Jdbc.throw, List.append_nil]
  | ok id =>
      rw [(Observer.onNext_spec jdk obs r o hread).2]
      have hquiet : Inert o → entriesOf (serve jdk r id obs.transpartIndex o).trace = [] := by
        rintro ⟨hop, hlog, hcommit, -⟩
        rw [(serve_spec jdk r id obs.transpartIndex o).2]
        simp [Block.entries, messageWrites, stmtWrites, serveEnding, Ending.entries, hop, hlog,
          hcommit]
      refine ⟨(serve jdk r id obs.transpartIndex o).trace,
        if verdict jdk r o = .failed then ({ obs with txnId := some id }.onError jdk o).trace
        else [], ?_, serve_closes jdk r id _ o, hquiet, ?_⟩
      · cases verdict jdk r o with
        | failed => rfl
        | served | escaped => exact (List.append_nil _).symm
      · split
        · exact .inr ⟨_, rfl⟩
        · exact .inl rfl

theorem quiet_callback (jdk : Jdk) (obs : Observer) (e : Event) :
    QuietOnceClosed (obs.callback jdk e).2.trace := by
  have hfails : ∀ (obs : Observer) o, QuietOnceClosed (obs.onError jdk o).trace := by
    intro obs o
    obtain ⟨rest, htrace, hrest⟩ := Observer.onError_calls jdk obs o
    rw [htrace]
    exact quiet_end hrest
  obtain ⟨cb, o⟩ := e
  cases cb with
  | onError => exact hfails obs o
  | onCompleted =>
      obtain ⟨rest, htrace, hrest⟩ := Observer.onCompleted_calls jdk obs o
      rw [Observer.callback, htrace]
      exact quiet_end hrest
  | onNext r =>
      obtain ⟨served, fails, htrace, hserved, -, hend⟩ := onNext_trace jdk obs r o
      rw [Observer.callback, htrace]
      refine QuietOnceClosed.append_left ?_ hserved
      rcases hend with rfl | ⟨obs', rfl⟩
      · exact .of_open rfl
      · exact hfails obs' o

theorem inert_callback (jdk : Jdk) (obs : Observer) {e : Event} (h : Inert e.2) :
    entriesOf (obs.callback jdk e).2.trace = [] := by
  have hfails : ∀ obs : Observer, entriesOf (obs.onError jdk e.2).trace = [] := by
    intro obs
    rw [Observer.onError_entries, h.2.2.2]
    rfl
  obtain ⟨cb, o⟩ := e
  cases cb with
  | onError => exact hfails obs
  | onCompleted =>
      rw [Observer.callback, Observer.onCompleted_entries, h.2.2.1]
      rfl
  | onNext r =>
      obtain ⟨served, fails, htrace, -, hserved, hend⟩ := onNext_trace jdk obs r o
      rw [Observer.callback, htrace, entriesOf_append, hserved h]
      rcases hend with rfl | ⟨obs', rfl⟩
      · rfl
      · exact hfails obs'

/-- An open call has not closed its connection. -/
theorem closes_open (hopen : ((Stream.start resultSet).run jdk es).callOpen = true) :
    ((Stream.start resultSet).run jdk es).closes = 0 := by
  induction es using List.reverseRecOn with
  | nil => rfl
  | append_singleton es e ih =>
      rw [Stream.run_append, Stream.run_cons, Stream.run_nil] at hopen ⊢
      obtain ⟨hbefore, r, o, id, rfl, hread, hv, -⟩ := open_deliver hopen
      rw [Stream.closes_deliver, ih hbefore, Nat.zero_add, Observer.callback,
        (Observer.onNext_spec jdk _ r o hread).2, hv]
      exact serve_closes jdk r id _ o

/-! ## What gRPC delivers -/

/-- Anything to an open call; to one that has ended what was on its way, and its connection is
closed by then. -/
def Stream.Hears (st : Stream) (e : Event) : Prop :=
  st.callOpen = true ∨ 0 < st.closes ∧ Inert e.2

def Stream.HearsAll (jdk : Jdk) : Stream → List Event → Prop
  | _, [] => True
  | st, e :: es => st.Hears e ∧ HearsAll jdk (st.deliver jdk e) es

theorem Stream.hearsAll_concat (jdk : Jdk) (st : Stream) (es : List Event) (e : Event) :
    st.HearsAll jdk (es ++ [e]) ↔ st.HearsAll jdk es ∧ (st.run jdk es).Hears e := by
  induction es generalizing st with
  | nil => exact ⟨fun h => ⟨trivial, h.1⟩, fun h => ⟨h.2, trivial⟩⟩
  | cons e' es ih => rw [List.cons_append, HearsAll, HearsAll, ih, and_assoc, run_cons]

theorem Sends.init {e : Event} (h : Sends calls (es ++ [e])) : Sends calls es := by
  obtain ⟨ms, fin, heq, hpre, -⟩ := h
  rcases fin with _ | t
  · rw [events, Option.map_none, Option.toList_none, List.append_nil] at heq
    obtain ⟨ns, ls, rfl, hns, -⟩ := List.map_eq_append_iff.mp heq.symm
    refine ⟨ns, none, ?_, ?_, fun _ hnone => by cases hnone⟩
    · rw [events, Option.map_none, Option.toList_none, List.append_nil, hns]
    · rw [List.map_append] at hpre
      exact (List.prefix_append _ _).trans hpre
  · obtain ⟨hes, -⟩ := List.append_inj' heq rfl
    refine ⟨ms, none, ?_, hpre, fun _ hnone => by cases hnone⟩
    rw [events, Option.map_none, Option.toList_none, List.append_nil, hes]

theorem Sends.before {fs : List Event} (h : Sends calls fs) (hpre : es <+: fs) :
    Sends calls es := by
  obtain ⟨rest, rfl⟩ := hpre
  induction rest using List.reverseRecOn with
  | nil => rwa [List.append_nil] at h
  | append_singleton rest e ih =>
      rw [← List.append_assoc] at h
      exact ih h.init

theorem quiet_run (hears : (Stream.start resultSet).HearsAll jdk es) :
    QuietOnceClosed ((Stream.start resultSet).run jdk es).trace := by
  induction es using List.reverseRecOn with
  | nil => exact .of_open rfl
  | append_singleton es e ih =>
      obtain ⟨hbefore, hlast⟩ := (Stream.hearsAll_concat ..).mp hears
      rw [Stream.run_append]
      rcases hlast with hopen | ⟨-, hinert⟩
      · exact QuietOnceClosed.append_left (quiet_callback jdk _ e) (closes_open hopen)
      · exact (ih hbefore).append (inert_callback jdk _ hinert)

/-- **A stream of one `End` commits everything or nothing**, and the answer it may have had says
so. -/
theorem streamEnd (hsends : Sends calls es) (hears : (Stream.start resultSet).HearsAll jdk es) :
    StreamEnd jdk calls ((Stream.start resultSet).run jdk es) := by
  induction es using List.reverseRecOn with
  | nil => exact streamEnd_open hsends rfl
  | append_singleton es e ih =>
      obtain ⟨hbefore, hlast⟩ := (Stream.hearsAll_concat ..).mp hears
      by_cases hopen : ((Stream.start resultSet).run jdk es).callOpen = true
      · exact streamEnd_concat hsends hopen
      · obtain ⟨-, hinert⟩ := hlast.resolve_left hopen
        set st := (Stream.start resultSet).run jdk es
        have hrun : (Stream.start resultSet).run jdk (es ++ [e]) = st.deliver jdk e :=
          Stream.run_append jdk _ es [e]
        have hsent := (Stream.deliver_closed jdk st e (by simpa using hopen)).2
        have hjournal : objectJournal (st.deliver jdk e).trace = objectJournal st.trace := by
          have htrace : (st.deliver jdk e).trace =
              st.trace ++ (st.observer.callback jdk e).2.trace := rfl
          rw [htrace, objectJournal_append, objectJournal_of_quiet (inert_callback jdk _ hinert),
            List.append_nil]
        rw [hrun]
        cases ih hsends.init hbefore with
        | nothing journal sent => exact .nothing (hjournal ▸ journal) (hsent ▸ sent)
        | everything ws rest asked journal closed sent =>
            exact .everything ws rest asked (hjournal.trans journal) closed (hsent ▸ sent)

end AuroraSizing.Transaction

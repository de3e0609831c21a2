import AuroraSizing.Transaction.Observer

/-!
# What one message comes to

`verdict` reads off a message and the answers it meets whether `onNext` serves
it, fails with a `SQLException`, or lets another exception escape. `serve_spec`
proves that it is right and says what the message leaves in the database
session; no later proof unfolds a repository method. `onError_spec` and
`onCompleted_spec` say the same of the two ends of the observer, which get to
their response only when no call on a proxy has raised.
-/

namespace AuroraSizing.Transaction

open Foundation.Journal

inductive Verdict where
  | served
  | failed
  | escaped
deriving DecidableEq, Repr

/-- What the `catch (SQLException)` of `onNext` makes of a result. -/
def Verdict.of : Except Throwable Unit → Verdict
  | .ok () => .served
  | .error .sqlException => .failed
  | .error _ => .escaped

theorem Verdict.of_eq_served {x : Except Throwable Unit} : of x = .served ↔ x = .ok () := by
  rcases x with e | u
  · cases e <;> simp [of]
  · simp [of]

theorem Verdict.of_eq_failed {x : Except Throwable Unit} :
    of x = .failed ↔ x = .error .sqlException := by
  rcases x with e | u
  · cases e <;> simp [of]
  · simp [of]

theorem Verdict.of_eq_escaped {x : Except Throwable Unit} :
    of x = .escaped ↔ ∃ e, e ≠ .sqlException ∧ x = .error e := by
  rcases x with e | u
  · cases e <;> simp [of]
  · simp [of]

theorem Verdict.isOk_eq (x : Except Throwable Unit) : x.isOk = (of x = .served : Bool) := by
  rcases x with e | u
  · cases e <;> rfl
  · rfl

/-- A call on the connection raises. -/
def raisedVerdict (jdk : Jdk) : Verdict := if jdk.proxied then .escaped else .failed

def stmtVerdict (jdk : Jdk) (o : StmtOutcome) : Verdict :=
  if o.prepared = false then raisedVerdict jdk
  else if o.good then .served else .failed

/-- A statement with a `Timestamp.valueOf` among its bindings. -/
def timedVerdict (jdk : Jdk) (t : Option Timestamp) (o : StmtOutcome) : Verdict :=
  if o.prepared = true ∧ t = none then .escaped else stmtVerdict jdk o

def opVerdict (jdk : Jdk) (r : CmdTransactionRequest) (o : Outcomes) : Verdict :=
  match transType r with
  | .insert => timedVerdict jdk (jdk.timestampValueOf r.getInsert.metadata.timeUpdate) o.op
  | .update => timedVerdict jdk (jdk.timestampValueOf r.getUpdate.newMetadata.timeUpdate) o.op
  | .rename | .delete => stmtVerdict jdk o.op
  | .trailer => if o.commit then .served else raisedVerdict jdk
  | .header | .unrecognized => .served

def logVerdict (jdk : Jdk) (r : CmdTransactionRequest) (o : Outcomes) : Verdict :=
  if transType r = .trailer then .served else stmtVerdict jdk o.log

def verdict (jdk : Jdk) (r : CmdTransactionRequest) (o : Outcomes) : Verdict :=
  match opVerdict jdk r o with
  | .served => logVerdict jdk r o
  | v => v

/-- The statement of the operation a message carries. -/
def opStmt? (jdk : Jdk) (r : CmdTransactionRequest) (id : JLong) (now : Timestamp) :
    Option Stmt :=
  match transType r with
  | .insert => (jdk.timestampValueOf r.getInsert.metadata.timeUpdate).map
      (ObjectRepository.bindInsertRec jdk r.getInsert id)
  | .update => (jdk.timestampValueOf r.getUpdate.newMetadata.timeUpdate).map
      (ObjectRepository.bindUpdateRec r.getUpdate id)
  | .rename => some (ObjectRepository.bindRenameDataRecords jdk r.getRename id now)
  | .delete => some (ObjectRepository.bindDeleteDataRecords r.getDelete)
  | .header | .trailer | .unrecognized => none

/-- The log row of a message: the header row, or the part row of every message
that is neither a header nor a trailer. -/
def logStmt? (r : CmdTransactionRequest) (id : JLong) (transpartIndex : ℕ) (now : Timestamp) :
    Option Stmt :=
  match transType r with
  | .header => some (Store.INSERT_TRANS_HEADER (ObjectRepository.headerRow r.getHeader id now))
  | .trailer => none
  | _ => some (Store.INSERT_TRANS_PARTS (ObjectRepository.partRow r id transpartIndex))

/-- Every statement a message asks for: its operation, then its log row. -/
def messageStmts (jdk : Jdk) (r : CmdTransactionRequest) (id : JLong) (transpartIndex : ℕ)
    (now : Timestamp) : List Stmt :=
  (opStmt? jdk r id now).toList ++ (logStmt? r id transpartIndex now).toList

/-- What reaches the session of a statement that may not be there at all. -/
def stmtWrites (s : Option Stmt) (o : StmtOutcome) : List Stmt :=
  if o.prepared = true ∧ o.rows ≠ 0 then s.toList else []

/-- What a message writes in the session. -/
def messageWrites (jdk : Jdk) (r : CmdTransactionRequest) (id : JLong) (transpartIndex : ℕ)
    (o : Outcomes) : List Stmt :=
  stmtWrites (opStmt? jdk r id o.now) o.op ++
    if opVerdict jdk r o = .served then stmtWrites (logStmt? r id transpartIndex o.now) o.log
    else []

/-! ## Served messages -/

theorem raisedVerdict_ne_served (jdk : Jdk) : raisedVerdict jdk ≠ .served := by
  unfold raisedVerdict
  split <;> simp

theorem good_of_stmtVerdict {jdk : Jdk} {o : StmtOutcome} (h : stmtVerdict jdk o = .served) :
    o.good := by
  unfold stmtVerdict at h
  split at h
  · exact absurd h (raisedVerdict_ne_served jdk)
  · by_contra hbad
    rw [if_neg hbad] at h
    cases h

theorem timedVerdict_served {jdk : Jdk} {t : Option Timestamp} {o : StmtOutcome}
    (h : timedVerdict jdk t o = .served) : stmtVerdict jdk o = .served := by
  unfold timedVerdict at h
  split at h
  · cases h
  · exact h

theorem verdict_served_iff {jdk : Jdk} {r : CmdTransactionRequest} {o : Outcomes} :
    verdict jdk r o = .served ↔
      opVerdict jdk r o = .served ∧ logVerdict jdk r o = .served := by
  unfold verdict
  cases hop : opVerdict jdk r o <;> simp

/-- A trailer is served exactly when its commit returns. -/
theorem verdict_trailer {jdk : Jdk} {r : CmdTransactionRequest} {o : Outcomes}
    (h : transType r = .trailer) : verdict jdk r o = .served ↔ o.commit = true := by
  rw [verdict_served_iff]
  cases hc : o.commit <;>
    simp [opVerdict, logVerdict, h, hc, raisedVerdict_ne_served]

/-! ## Spec lemmas, one for each repository call -/

def stmtTrace (s : Option Stmt) (o : StmtOutcome) : List Action :=
  if o.prepared then s.toList.map fun s => .execute s o.rows o.raised else []

theorem entriesOf_stmtTrace (s : Option Stmt) (o : StmtOutcome) :
    entriesOf (stmtTrace s o) = (stmtWrites s o).map Entry.write := by
  cases hp : o.prepared
  · simp [stmtTrace, stmtWrites, entriesOf, hp]
  · cases s with
    | none => simp [stmtTrace, stmtWrites, entriesOf, hp]
    | some s =>
        by_cases hr : o.rows = 0
        · simp [stmtTrace, stmtWrites, entriesOf, Action.entries, hp, hr]
        · simp [stmtTrace, stmtWrites, entriesOf, Action.entries, hp, hr]

theorem throwUnless_executeOne (jdk : Jdk) (s : Stmt) (o : StmtOutcome) :
    let run := throwUnless do
      ObjectRepository.prepareStatement jdk o
      ObjectRepository.executeOne s o
    Verdict.of run.result = stmtVerdict jdk o ∧ run.trace = stmtTrace (some s) o := by
  rcases o with ⟨prepared, rows, raised⟩
  cases prepared
  · refine ⟨?_, rfl⟩
    show Verdict.of (.error (Jdbc.raised jdk)) = raisedVerdict jdk
    unfold Jdbc.raised raisedVerdict
    split <;> rfl
  · cases raised
    -- the statement ran: only one changed row is a success
    · by_cases hr : rows = 1
      · subst hr
        exact ⟨rfl, rfl⟩
      · have hv : stmtVerdict jdk ⟨true, rows, false⟩ = .failed := by
          simp [stmtVerdict, StmtOutcome.good, hr]
        have hb : (rows == 1) = false := by simpa using hr
        rw [hv]
        simp only [throwUnless, ObjectRepository.prepareStatement,
          ObjectRepository.executeOne, ObjectRepository.executeUpdate, stmtTrace]
        simp [bind, Jdbc.bind, Pure.pure, Jdbc.pure, hb, Jdbc.throw, Verdict.of]
    · have hv : stmtVerdict jdk ⟨true, rows, true⟩ = .failed := by
        simp [stmtVerdict, StmtOutcome.good]
      rw [hv]
      exact ⟨rfl, rfl⟩

theorem throwUnless_timed (jdk : Jdk) (time : String) (f : Timestamp → Stmt)
    (o : StmtOutcome) :
    let run := throwUnless do
      ObjectRepository.prepareStatement jdk o
      let t ← ObjectRepository.valueOf jdk time
      ObjectRepository.executeOne (f t) o
    Verdict.of run.result = timedVerdict jdk (jdk.timestampValueOf time) o ∧
      run.trace = stmtTrace ((jdk.timestampValueOf time).map f) o := by
  cases ht : jdk.timestampValueOf time with
  | some t =>
      have hvalue : ObjectRepository.valueOf jdk time = pure t := by
        simp [ObjectRepository.valueOf, ht]
      have htimed : timedVerdict jdk (some t) o = stmtVerdict jdk o := by simp [timedVerdict]
      rw [hvalue, htimed]
      exact throwUnless_executeOne jdk (f t) o
  | none =>
      have hvalue : ObjectRepository.valueOf jdk time =
          Jdbc.throw .illegalArgumentException := by
        simp [ObjectRepository.valueOf, ht]
      rw [hvalue]
      rcases o with ⟨prepared, rows, raised⟩
      cases prepared
      -- a statement that is not prepared never gets to its bindings
      · exact ⟨(throwUnless_executeOne jdk (f ⟨0⟩) ⟨false, rows, raised⟩).1, rfl⟩
      · exact ⟨rfl, rfl⟩

theorem switchTransSeq_spec (jdk : Jdk) (r : CmdTransactionRequest) (id : JLong)
    (o : Outcomes) :
    Verdict.of (switchTransSeq jdk r id o).result = opVerdict jdk r o ∧
      (switchTransSeq jdk r id o).trace =
        if transType r = .trailer then [.commit o.commit]
        else stmtTrace (opStmt? jdk r id o.now) o.op := by
  unfold switchTransSeq opVerdict opStmt?
  cases hr : transType r with
  | header => simp [Verdict.of, stmtTrace]
  | unrecognized => simp [Verdict.of, stmtTrace]
  | insert => simpa [ObjectRepository.insertRec] using throwUnless_timed jdk _ _ o.op
  | update => simpa [ObjectRepository.updateRec] using throwUnless_timed jdk _ _ o.op
  | rename =>
      simpa [ObjectRepository.renameDataRecords] using throwUnless_executeOne jdk _ o.op
  | delete =>
      simpa [ObjectRepository.deleteDataRecords] using throwUnless_executeOne jdk _ o.op
  | trailer =>
      cases hc : o.commit with
      | true => exact ⟨rfl, rfl⟩
      | false =>
          refine ⟨?_, rfl⟩
          show Verdict.of (.error (Jdbc.raised jdk)) = raisedVerdict jdk
          unfold Jdbc.raised raisedVerdict
          split <;> rfl

theorem insertTransLog_spec (jdk : Jdk) (r : CmdTransactionRequest) (id : JLong)
    (transpartIndex : ℕ) (o : Outcomes) :
    Verdict.of (insertTransLog jdk r id transpartIndex o).result = logVerdict jdk r o ∧
      (insertTransLog jdk r id transpartIndex o).trace =
        stmtTrace (logStmt? r id transpartIndex o.now) o.log := by
  have hpart := throwUnless_executeOne jdk
    (Store.INSERT_TRANS_PARTS (ObjectRepository.partRow r id transpartIndex)) o.log
  unfold insertTransLog logVerdict logStmt?
  cases hr : transType r with
  | header => simpa [ObjectRepository.insertHeaderLog] using throwUnless_executeOne jdk _ o.log
  | trailer => simp [Verdict.of, stmtTrace]
  | insert => simpa [ObjectRepository.insertTranspartLog] using hpart
  | update => simpa [ObjectRepository.insertTranspartLog] using hpart
  | rename => simpa [ObjectRepository.insertTranspartLog] using hpart
  | delete => simpa [ObjectRepository.insertTranspartLog] using hpart
  | unrecognized => simpa [ObjectRepository.insertTranspartLog] using hpart

/-- The trailer writes nothing and, when its commit returns, commits. -/
def serveEnding (r : CmdTransactionRequest) (o : Outcomes) : Ending :=
  if transType r = .trailer ∧ o.commit = true then .commit else .keep

theorem serveEnding_of_not_served {jdk : Jdk} {r : CmdTransactionRequest} {o : Outcomes}
    (h : verdict jdk r o ≠ .served) : serveEnding r o = .keep :=
  if_neg fun ⟨htrailer, hcommit⟩ => h ((verdict_trailer htrailer).mpr hcommit)

section Serve
variable (jdk : Jdk) (r : CmdTransactionRequest) (id : JLong) (transpartIndex : ℕ) (o : Outcomes)

theorem serve_result :
    Verdict.of (serve jdk r id transpartIndex o).result = verdict jdk r o := by
  have hres := (switchTransSeq_spec jdk r id o).1
  have hlog := (insertTransLog_spec jdk r id transpartIndex o).1
  show Verdict.of (switchTransSeq jdk r id o >>= fun _ =>
    insertTransLog jdk r id transpartIndex o).result = _
  cases hop : opVerdict jdk r o with
  | served =>
      rw [hop, Verdict.of_eq_served] at hres
      rw [Jdbc.bind_ok _ hres, hlog, verdict, hop]
  | failed =>
      rw [hop, Verdict.of_eq_failed] at hres
      rw [Jdbc.bind_error _ hres, verdict, hop]
      rfl
  | escaped =>
      rw [hop, Verdict.of_eq_escaped] at hres
      obtain ⟨e, he, hres⟩ := hres
      rw [Jdbc.bind_error _ hres, verdict, hop]
      exact Verdict.of_eq_escaped.mpr ⟨e, he, rfl⟩

/-- The calls of a message: its operation's, and once that is served, those of its log row. -/
theorem serve_trace :
    (serve jdk r id transpartIndex o).trace =
      (if transType r = .trailer then [.commit o.commit]
        else stmtTrace (opStmt? jdk r id o.now) o.op) ++
      if opVerdict jdk r o = .served then stmtTrace (logStmt? r id transpartIndex o.now) o.log
      else [] := by
  obtain ⟨hres, htrace⟩ := switchTransSeq_spec jdk r id o
  have hlog := (insertTransLog_spec jdk r id transpartIndex o).2
  rw [← htrace]
  show (switchTransSeq jdk r id o >>= fun _ =>
    insertTransLog jdk r id transpartIndex o).trace = _
  cases hop : opVerdict jdk r o with
  | served =>
      rw [hop, Verdict.of_eq_served] at hres
      rw [Jdbc.bind_ok _ hres, hlog, if_pos rfl]
  | failed =>
      rw [hop, Verdict.of_eq_failed] at hres
      rw [Jdbc.bind_error _ hres, if_neg Verdict.noConfusion, List.append_nil]
  | escaped =>
      rw [hop, Verdict.of_eq_escaped] at hres
      obtain ⟨e, -, hres⟩ := hres
      rw [Jdbc.bind_error _ hres, if_neg Verdict.noConfusion, List.append_nil]

theorem serve_spec :
    Verdict.of (serve jdk r id transpartIndex o).result = verdict jdk r o ∧
      entriesOf (serve jdk r id transpartIndex o).trace =
        (Block.mk (messageWrites jdk r id transpartIndex o) (serveEnding r o)).entries := by
  refine ⟨serve_result jdk r id transpartIndex o, ?_⟩
  rw [serve_trace]
  by_cases htrailer : transType r = .trailer
  · -- the trailer has no statement of either kind: only its commit counts
    have hop : opStmt? jdk r id o.now = none := by simp [opStmt?, htrailer]
    have hlog : logStmt? r id transpartIndex o.now = none := by simp [logStmt?, htrailer]
    rw [if_pos htrailer, messageWrites, hop, hlog]
    cases hc : o.commit <;>
      simp [stmtTrace, stmtWrites, serveEnding, htrailer, hc, Block.entries, Ending.entries,
        entriesOf, Action.entries]
  · have hend : serveEnding r o = .keep := by simp [serveEnding, htrailer]
    rw [if_neg htrailer, entriesOf_append, entriesOf_stmtTrace, hend, messageWrites]
    split
    · simp [entriesOf_stmtTrace, Block.entries, Ending.entries]
    · simp [entriesOf, Block.entries, Ending.entries]

end Serve

theorem stmtTrace_good {jdk : Jdk} {o : StmtOutcome} (h : stmtVerdict jdk o = .served)
    (s : Option Stmt) : stmtTrace s o = s.toList.map fun s => .execute s 1 false := by
  rcases good_of_stmtVerdict h with ⟨hprepared, hrows, hraised⟩
  simp [stmtTrace, hprepared, hrows, hraised]

/-- A served message calls its statements, one row each, and a trailer commits. -/
theorem serve_trace_served {jdk : Jdk} {r : CmdTransactionRequest} {o : Outcomes}
    (h : verdict jdk r o = .served) (id : JLong) (k : ℕ) :
    (serve jdk r id k o).trace =
      if transType r = .trailer then [.commit true]
      else (messageStmts jdk r id k o.now).map fun s => .execute s 1 false := by
  obtain ⟨hop, hlog⟩ := verdict_served_iff.mp h
  rw [serve_trace, if_pos hop]
  by_cases htrailer : transType r = .trailer
  · have hcommit : o.commit = true := (verdict_trailer htrailer).mp h
    simp [htrailer, hcommit, logStmt?, stmtTrace]
  · rw [logVerdict, if_neg htrailer] at hlog
    have hopTrace : stmtTrace (opStmt? jdk r id o.now) o.op =
        (opStmt? jdk r id o.now).toList.map fun s => .execute s 1 false := by
      cases hr : transType r with
      | header => simp [opStmt?, hr, stmtTrace]
      | trailer => exact absurd hr htrailer
      | unrecognized => simp [opStmt?, hr, stmtTrace]
      | insert =>
          exact stmtTrace_good (timedVerdict_served (by simpa [opVerdict, hr] using hop)) _
      | update =>
          exact stmtTrace_good (timedVerdict_served (by simpa [opVerdict, hr] using hop)) _
      | rename => exact stmtTrace_good (by simpa [opVerdict, hr] using hop) _
      | delete => exact stmtTrace_good (by simpa [opVerdict, hr] using hop) _
    rw [if_neg htrailer, if_neg htrailer, hopTrace, stmtTrace_good hlog, messageStmts,
      List.map_append]

theorem serve_responses (jdk : Jdk) (r : CmdTransactionRequest) (id : JLong)
    (transpartIndex : ℕ) (o : Outcomes) :
    (serve jdk r id transpartIndex o).trace.filterMap Action.response? = [] := by
  have hstmt : ∀ (s : Option Stmt) (p : StmtOutcome),
      (stmtTrace s p).filterMap Action.response? = [] := by
    intro s p
    cases s <;> cases hp : p.prepared <;> simp [stmtTrace, hp, Action.response?]
  rw [serve_trace, List.filterMap_append, List.append_eq_nil_iff]
  constructor
  · split
    · simp [Action.response?]
    · exact hstmt _ _
  · split
    · exact hstmt _ _
    · rfl

/-! ## The two ends of the observer -/

/-- The id as the `int` of a response, when it fits. -/
def intOf (id : JLong) : Option JInt :=
  if (id.setWidth 32).signExtend 64 = id then some (id.setWidth 32) else none

theorem signExtend_of_intOf {id : JLong} {i : JInt} (h : intOf id = some i) :
    i.signExtend 64 = id := by
  unfold intOf at h
  split at h
  · cases h
    assumption
  · cases h

theorem toIntExact_eq (id : JLong) :
    toIntExact id =
      match intOf id with
      | some i => pure i
      | none => Jdbc.throw .arithmeticException := by
  unfold toIntExact intOf
  split <;> rfl

/-- `onError` gets past the connection to its response. -/
def failureAnswered (jdk : Jdk) (o : Outcomes) : Bool :=
  !jdk.proxied || (o.rollback && o.close)

/-- `onCompleted` gets past its commit to the `close`. -/
def completionCloses (jdk : Jdk) (o : Outcomes) : Bool := !jdk.proxied || o.commit

/-- `onCompleted` gets past the connection to its response. -/
def completionAnswered (jdk : Jdk) (o : Outcomes) : Bool :=
  !jdk.proxied || (o.commit && o.close)

theorem completionCloses_of_answered {jdk : Jdk} {o : Outcomes}
    (h : completionAnswered jdk o = true) : completionCloses jdk o = true := by
  revert h
  simp only [completionAnswered, completionCloses, Bool.or_eq_true, Bool.and_eq_true]
  exact Or.imp_right And.left

/-- Calls that only close the connection and respond. -/
def LetsGo (trace : List Action) : Prop :=
  ∀ a ∈ trace, (∃ ok, a = .close ok) ∨ ∃ m, a = .respond m

theorem LetsGo.entries {trace : List Action} (h : LetsGo trace) : entriesOf trace = [] := by
  refine List.flatMap_eq_nil_iff.mpr ?_
  intro a ha
  rcases h a ha with ⟨ok, rfl⟩ | ⟨m, rfl⟩ <;> rfl

namespace Observer

/-- The id of the response, for a callback that gets to it. -/
def answerId (obs : Observer) (reached : Bool) : Option JInt :=
  if reached then obs.txnId.bind intOf else none

/-- How both ends build their response. -/
def answer (obs : Observer) (f : JInt → TransMsgResponse) : Jdbc Unit := do
  let id ← optionalGet obs.txnId
  let txnId ← toIntExact id
  Jdbc.act (.respond (f txnId))

theorem answer_spec (obs : Observer) (f : JInt → TransMsgResponse) :
    (obs.answer f).trace = ((obs.txnId.bind intOf).map fun i => .respond (f i)).toList ∧
      (obs.answer f).result.isOk = (obs.txnId.bind intOf).isSome := by
  rcases obs with ⟨txnId, k, rs⟩
  cases txnId with
  | none => exact ⟨rfl, rfl⟩
  | some id =>
      have hanswer : answer ⟨some id, k, rs⟩ f =
          (toIntExact id >>= fun txnId => Jdbc.act (.respond (f txnId))) := rfl
      rw [hanswer, toIntExact_eq, Option.bind_some]
      cases intOf id with
      | none => exact ⟨rfl, rfl⟩
      | some i => exact ⟨rfl, rfl⟩

/-- What comes before the response decides whether it is reached. -/
theorem bind_answer {release : Jdbc Unit} {reached : Bool}
    (h : release.result.isOk = reached) (obs : Observer) (f : JInt → TransMsgResponse) :
    (release >>= fun _ => obs.answer f).trace = release.trace ++
        ((obs.answerId reached).map fun i => .respond (f i)).toList ∧
      (release >>= fun _ => obs.answer f).result.isOk = (obs.answerId reached).isSome := by
  subst h
  obtain ⟨htrace, hresult⟩ := answer_spec obs f
  cases hx : release.result with
  | ok u =>
      rw [Jdbc.bind_ok _ hx]
      exact ⟨congrArg (release.trace ++ ·) htrace, hresult⟩
  | error e =>
      rw [Jdbc.bind_error _ hx]
      exact ⟨(List.append_nil _).symm, rfl⟩

theorem onError_spec (jdk : Jdk) (obs : Observer) (o : Outcomes) :
    (obs.onError jdk o).trace = [.rollback o.rollback, .close o.close] ++
        ((obs.answerId (failureAnswered jdk o)).map fun i =>
          .respond (.msgOnFailure 1 i)).toList ∧
      (obs.onError jdk o).result.isOk =
        (obs.answerId (failureAnswered jdk o)).isSome := by
  have hrelease : (tryFinally (logSQLException (Jdbc.rollback jdk o.rollback))
        (logSQLException (Jdbc.close jdk o.close))).result.isOk = failureAnswered jdk o := by
    unfold failureAnswered
    cases hp : jdk.proxied <;> cases o.rollback <;> cases o.close <;>
      simp [tryFinally, logSQLException, Jdbc.rollback, Jdbc.close, Jdbc.raised, hp,
        Except.isOk, Except.toBool]
  have htrace : (tryFinally (logSQLException (Jdbc.rollback jdk o.rollback))
        (logSQLException (Jdbc.close jdk o.close))).trace =
          [.rollback o.rollback, .close o.close] := by
    cases hp : jdk.proxied <;> cases o.rollback <;> cases o.close <;>
      simp [tryFinally, logSQLException, Jdbc.rollback, Jdbc.close, Jdbc.raised, hp]
  rw [← htrace]
  exact bind_answer hrelease obs fun i => .msgOnFailure 1 i

/-- A commit that escapes comes before the `close`. -/
theorem onCompleted_spec (jdk : Jdk) (obs : Observer) (o : Outcomes) :
    (obs.onCompleted jdk o).trace = .commit o.commit ::
        (if completionCloses jdk o then [.close o.close] else []) ++
        ((obs.answerId (completionAnswered jdk o)).map fun i =>
          .respond (.msgOnSuccess 0 i)).toList ∧
      (obs.onCompleted jdk o).result.isOk =
        (obs.answerId (completionAnswered jdk o)).isSome := by
  have hrelease : (logSQLException (ObjectRepository.commitTransaction jdk o.commit) >>=
      fun _ => logSQLException (Jdbc.close jdk o.close)).result.isOk =
        completionAnswered jdk o := by
    unfold completionAnswered
    cases hp : jdk.proxied <;> cases o.commit <;> cases o.close <;>
      simp [bind, Jdbc.bind, logSQLException, ObjectRepository.commitTransaction, Jdbc.commit,
        Jdbc.close, Jdbc.raised, hp, Except.isOk, Except.toBool]
  have htrace : (logSQLException (ObjectRepository.commitTransaction jdk o.commit) >>=
      fun _ => logSQLException (Jdbc.close jdk o.close)).trace =
        .commit o.commit :: if completionCloses jdk o then [.close o.close] else [] := by
    unfold completionCloses
    cases hp : jdk.proxied <;> cases o.commit <;> cases o.close <;>
      simp [bind, Jdbc.bind, logSQLException, ObjectRepository.commitTransaction, Jdbc.commit,
        Jdbc.close, Jdbc.raised, hp]
  rw [← htrace]
  have hbind := bind_answer hrelease obs fun i => .msgOnSuccess 0 i
  rw [Jdbc.bind_assoc] at hbind
  exact hbind

/-- `onError` rolls back first. -/
theorem onError_calls (jdk : Jdk) (obs : Observer) (o : Outcomes) :
    ∃ rest, (obs.onError jdk o).trace = .rollback o.rollback :: rest ∧ LetsGo rest := by
  refine ⟨_, (onError_spec jdk obs o).1, ?_⟩
  cases obs.answerId (failureAnswered jdk o) <;> simp [LetsGo]

/-- `onCompleted` commits first. -/
theorem onCompleted_calls (jdk : Jdk) (obs : Observer) (o : Outcomes) :
    ∃ rest, (obs.onCompleted jdk o).trace = .commit o.commit :: rest ∧ LetsGo rest := by
  refine ⟨_, (onCompleted_spec jdk obs o).1, ?_⟩
  cases obs.answerId (completionAnswered jdk o) <;> cases completionCloses jdk o <;>
    simp [LetsGo]

/-- Neither end executes a statement. -/
theorem execute_notMem_end (jdk : Jdk) (obs : Observer) (o : Outcomes) (s : Stmt) (rows : ℕ)
    (raised : Bool) :
    .execute s rows raised ∉ (obs.onError jdk o).trace ∧
      .execute s rows raised ∉ (obs.onCompleted jdk o).trace := by
  have hletsGo : ∀ {rest : List Action}, LetsGo rest → .execute s rows raised ∉ rest := by
    intro rest h hmem
    rcases h _ hmem with ⟨ok, heq⟩ | ⟨m, heq⟩ <;> cases heq
  obtain ⟨rest, herror, hrest⟩ := onError_calls jdk obs o
  obtain ⟨rest', hcompleted, hrest'⟩ := onCompleted_calls jdk obs o
  rw [herror, hcompleted, List.mem_cons, List.mem_cons]
  simp [hletsGo hrest, hletsGo hrest']

theorem onError_responses (jdk : Jdk) (obs : Observer) (o : Outcomes) :
    (obs.onError jdk o).trace.filterMap Action.response? =
      ((obs.answerId (failureAnswered jdk o)).map fun i => .msgOnFailure 1 i).toList := by
  rw [(onError_spec jdk obs o).1]
  cases obs.answerId (failureAnswered jdk o) <;> rfl

theorem onCompleted_responses (jdk : Jdk) (obs : Observer) (o : Outcomes) :
    (obs.onCompleted jdk o).trace.filterMap Action.response? =
      ((obs.answerId (completionAnswered jdk o)).map fun i => .msgOnSuccess 0 i).toList := by
  rw [(onCompleted_spec jdk obs o).1]
  cases obs.answerId (completionAnswered jdk o) <;> cases completionCloses jdk o <;> rfl

theorem onError_entries (jdk : Jdk) (obs : Observer) (o : Outcomes) :
    entriesOf (obs.onError jdk o).trace = if o.rollback then [.abort] else [] := by
  obtain ⟨rest, htrace, hrest⟩ := onError_calls jdk obs o
  rw [htrace, entriesOf, List.flatMap_cons, ← entriesOf, hrest.entries]
  cases o.rollback <;> rfl

theorem onCompleted_entries (jdk : Jdk) (obs : Observer) (o : Outcomes) :
    entriesOf (obs.onCompleted jdk o).trace = if o.commit then [.commit] else [] := by
  obtain ⟨rest, htrace, hrest⟩ := onCompleted_calls jdk obs o
  rw [htrace, entriesOf, List.flatMap_cons, ← entriesOf, hrest.entries]
  cases o.commit <;> rfl

theorem answerId_unknown {obs : Observer} (h : obs.txnId = none) (reached : Bool) :
    obs.answerId reached = none := by
  unfold answerId
  rw [h]
  exact ite_self none

theorem answerId_known {obs : Observer} {id : JLong} (h : obs.txnId = some id)
    (reached : Bool) : obs.answerId reached = if reached then intOf id else none := by
  unfold answerId
  rw [h]
  rfl

end Observer

/-! ## The callbacks of an observer that knows its transaction id -/

/-- How a callback leaves the database session. -/
def eventEnding (jdk : Jdk) : Event → Ending
  | (.onNext r, o) =>
      match verdict jdk r o with
      | .served => serveEnding r o
      | .failed => if o.rollback then .abort else .keep
      | .escaped => .keep
  | (.onCompleted, o) => if o.commit then .commit else .keep
  | (.onError, o) => if o.rollback then .abort else .keep

def eventWrites (jdk : Jdk) (id : JLong) (transpartIndex : ℕ) : Event → List Stmt
  | (.onNext r, o) => messageWrites jdk r id transpartIndex o
  | (.onCompleted, _) | (.onError, _) => []

def eventBlock (jdk : Jdk) (id : JLong) (transpartIndex : ℕ) (e : Event) : Block Stmt :=
  ⟨eventWrites jdk id transpartIndex e, eventEnding jdk e⟩

/-- The response of a callback, for an id that fits. -/
def eventResponse (jdk : Jdk) (txnId : JInt) : Event → Option TransMsgResponse
  | (.onNext r, o) =>
      if verdict jdk r o = .failed ∧ failureAnswered jdk o = true then
        some (.msgOnFailure 1 txnId)
      else none
  | (.onCompleted, o) =>
      if completionAnswered jdk o then some (.msgOnSuccess 0 txnId) else none
  | (.onError, o) => if failureAnswered jdk o then some (.msgOnFailure 1 txnId) else none

/-- Whether a callback returns without answering: the only way for a call to
stay open. -/
def servedEvent (jdk : Jdk) : Event → Bool
  | (.onNext r, o) => verdict jdk r o = .served
  | (.onCompleted, _) | (.onError, _) => false

def nextIndex (jdk : Jdk) (transpartIndex : ℕ) : Event → ℕ
  | (.onNext r, o) =>
      if verdict jdk r o = .served ∧ isPart r = true then transpartIndex + 1
      else transpartIndex
  | (.onCompleted, _) | (.onError, _) => transpartIndex

/-- The `catch` of `onNext` lets everything but a `SQLException` through. -/
theorem Observer.handle_escaped (jdk : Jdk) (obs : Observer) (o : Outcomes)
    {body : Jdbc Unit} (h : Verdict.of body.result = .escaped) :
    obs.handle jdk o body = body := by
  obtain ⟨e, he, hres⟩ := Verdict.of_eq_escaped.mp h
  unfold Observer.handle
  rw [hres]
  cases e with
  | sqlException => exact absurd rfl he
  | _ => rfl

/-- `onNext` once the id is known, by the verdict on its message. -/
theorem Observer.onNext_spec (jdk : Jdk) (obs : Observer) (r : CmdTransactionRequest)
    (o : Outcomes) {id : JLong} (h : (obs.readTxnId o).result = .ok id) :
    (obs.onNext jdk r o).1 =
        { obs with txnId := some id
                   transpartIndex := nextIndex jdk obs.transpartIndex (.onNext r, o) } ∧
      (obs.onNext jdk r o).2 =
        match verdict jdk r o with
        | .failed =>
            ⟨({ obs with txnId := some id }.onError jdk o).result,
              (serve jdk r id obs.transpartIndex o).trace ++
                ({ obs with txnId := some id }.onError jdk o).trace⟩
        | _ => serve jdk r id obs.transpartIndex o := by
  obtain ⟨hres, -⟩ := serve_spec jdk r id obs.transpartIndex o
  unfold Observer.onNext
  rw [h]
  cases hv : verdict jdk r o with
  | served =>
      -- only a served part moves the index
      rw [hv, Verdict.of_eq_served] at hres
      cases hpart : isPart r <;> simp [hres, Observer.handle, nextIndex, hv, hpart]
  | failed =>
      rw [hv, Verdict.of_eq_failed] at hres
      simp [hres, Observer.handle, nextIndex, hv]
  | escaped =>
      rw [hv] at hres
      have hhandle := Observer.handle_escaped jdk { obs with txnId := some id } o hres
      obtain ⟨e, -, hraised⟩ := Verdict.of_eq_escaped.mp hres
      simp [hraised, hhandle, nextIndex, hv]

theorem Observer.readTxnId_known {obs : Observer} {id : JLong} (h : obs.txnId = some id)
    (o : Outcomes) : (obs.readTxnId o).result = .ok id := by
  unfold Observer.readTxnId
  rw [h]
  rfl

section Callbacks
variable (jdk : Jdk) (obs : Observer) {id : JLong} (h : obs.txnId = some id)
include h

theorem Observer.callback_observer (e : Event) :
    (obs.callback jdk e).1 =
      { obs with transpartIndex := nextIndex jdk obs.transpartIndex e } := by
  rcases e with ⟨cb, o⟩
  cases cb with
  | onNext r =>
      rw [Observer.callback, (onNext_spec jdk obs r o (readTxnId_known h o)).1, ← h]
  | onCompleted => rfl
  | onError => rfl

theorem Observer.callback_entries (e : Event) :
    entriesOf (obs.callback jdk e).2.trace =
      (eventBlock jdk id obs.transpartIndex e).entries := by
  rcases e with ⟨cb, o⟩
  cases cb with
  | onNext r =>
      rw [Observer.callback, (onNext_spec jdk obs r o (readTxnId_known h o)).2]
      obtain ⟨hres, hent⟩ := serve_spec jdk r id obs.transpartIndex o
      cases hv : verdict jdk r o with
      | served => simp [hent, eventBlock, eventWrites, eventEnding, hv]
      | escaped =>
          simp [hent, eventBlock, eventWrites, eventEnding, hv,
            serveEnding_of_not_served (by simp [hv] : verdict jdk r o ≠ .served)]
      | failed =>
          simp only [entriesOf_append, hent, onError_entries]
          simp only [serveEnding_of_not_served (by simp [hv] : verdict jdk r o ≠ .served),
            eventBlock, eventWrites, eventEnding, hv, Block.entries, Ending.entries,
            List.append_nil]
          cases o.rollback <;> rfl
  | onCompleted =>
      rw [Observer.callback, onCompleted_entries]
      cases hc : o.commit <;>
        simp [eventBlock, eventWrites, eventEnding, Block.entries, Ending.entries, hc]
  | onError =>
      rw [Observer.callback, onError_entries]
      cases hr : o.rollback <;>
        simp [eventBlock, eventWrites, eventEnding, Block.entries, Ending.entries, hr]

theorem Observer.callback_responses (e : Event) :
    (obs.callback jdk e).2.trace.filterMap Action.response? =
      ((intOf id).bind fun i => eventResponse jdk i e).toList := by
  rcases e with ⟨cb, o⟩
  cases cb with
  | onNext r =>
      rw [Observer.callback, (onNext_spec jdk obs r o (readTxnId_known h o)).2]
      cases hv : verdict jdk r o with
      | served => cases intOf id <;> simp [serve_responses, eventResponse, hv]
      | escaped => cases intOf id <;> simp [serve_responses, eventResponse, hv]
      | failed =>
          have hobs : ({ obs with txnId := some id } : Observer).txnId = some id := rfl
          simp only [List.filterMap_append, serve_responses, onError_responses,
            answerId_known hobs, eventResponse, hv]
          cases intOf id <;> cases failureAnswered jdk o <;> rfl
  | onCompleted =>
      rw [Observer.callback, onCompleted_responses, answerId_known h]
      simp only [eventResponse]
      cases intOf id <;> cases completionAnswered jdk o <;> rfl
  | onError =>
      rw [Observer.callback, onError_responses, answerId_known h]
      simp only [eventResponse]
      cases intOf id <;> cases failureAnswered jdk o <;> rfl

/-- A call survives exactly the callbacks that serve their message. -/
theorem Observer.callback_survives (e : Event) :
    (((obs.callback jdk e).2.trace.filterMap Action.response?).isEmpty &&
      (obs.callback jdk e).2.result.isOk) = servedEvent jdk e := by
  rw [callback_responses jdk obs h]
  rcases e with ⟨cb, o⟩
  cases cb with
  | onNext r =>
      rw [Observer.callback, (onNext_spec jdk obs r o (readTxnId_known h o)).2]
      have hres := (serve_spec jdk r id obs.transpartIndex o).1
      cases hv : verdict jdk r o with
      | served =>
          rw [hv, Verdict.of_eq_served] at hres
          cases intOf id <;>
            simp [hres, hv, Except.isOk, Except.toBool, eventResponse, servedEvent]
      | escaped =>
          obtain ⟨e, -, hraised⟩ := Verdict.of_eq_escaped.mp (hres.trans hv)
          simp [hraised, hv, Except.isOk, Except.toBool, servedEvent]
      | failed =>
          have hobs : ({ obs with txnId := some id } : Observer).txnId = some id := rfl
          simp only [(onError_spec jdk _ o).2, answerId_known hobs, eventResponse, servedEvent, hv]
          cases intOf id <;> cases failureAnswered jdk o <;> rfl
  | onCompleted =>
      rw [Observer.callback, (onCompleted_spec jdk obs o).2, answerId_known h]
      simp only [eventResponse, servedEvent]
      cases intOf id <;> cases completionAnswered jdk o <;> rfl
  | onError =>
      rw [Observer.callback, (onError_spec jdk obs o).2, answerId_known h]
      simp only [eventResponse, servedEvent]
      cases intOf id <;> cases failureAnswered jdk o <;> rfl

end Callbacks

end AuroraSizing.Transaction

import AuroraSizing.Foundation.Handover
import AuroraSizing.Objects.Reconciliation
import AuroraSizing.Transaction.Closing

/-!
# One connection, one borrower after another

The pool's connections have autoCommit off, and `closeHandler` puts a connection back as
it is. What a borrower has executed and neither committed nor rolled back is still in the
connection's transaction when the next borrower gets it, and its commit makes both
durable. `onError` of a transaction stream rolls back before it closes; `InsertionTask`
and `offloadToDB` catch every `Throwable` and only log it. A stream whose last commit
escapes from `onCompleted` never closes its proxy, and nobody gets its connection again.

The pool serves PostgreSQL, which drops the work of a transaction when it refuses a
statement, and H2, which keeps it; `abortsOnError` says which.
-/

namespace AuroraSizing.Borrowers

open Foundation.Journal Foundation.Handover Transaction Reconciliation

/-! ## The loaders -/

/-- A call of a loader on its connection. -/
inductive Call where
  | execute (stmt : Stmt)
  | commit
deriving DecidableEq, Repr

def Call.entry : Call → Entry Stmt
  | .execute stmt => .write stmt
  | .commit => .commit

def insertCall (row : ObjectRow) : Call := .execute (.insertRecords row)

/-- The calls of an `InsertionTask` that nothing interrupts, `recsAdded` rows after its last
commit. -/
def InsertionTask.calls (timestamp : Timestamp) : ℕ → List DBRecordMetaData → List Call
  | _, [] => [.commit]
  | recsAdded, r :: rs =>
      if recsAdded > 20000 then
        insertCall (InsertionTask.insertRec timestamp r) :: .commit :: calls timestamp 0 rs
      else
        insertCall (InsertionTask.insertRec timestamp r) :: calls timestamp (recsAdded + 1) rs

/-- The calls of an `offloadToDB` that nothing interrupts. -/
def offloadToDB.calls (objects : List ObjectRow) : List Call :=
  objects.map insertCall ++ [.commit]

/-- A `Throwable` in place of a call; `refused` says that the database raised it. -/
structure Thrown where
  position : ℕ
  refused : Bool
deriving DecidableEq, Repr

/-- The loaders catch `Throwable`: the calls up to it, and no more. -/
def upTo (abortsOnError : Bool) (calls : List Call) : Option Thrown → List (Entry Stmt)
  | none => calls.map Call.entry
  | some t =>
      (calls.take t.position).map Call.entry ++
        if abortsOnError ∧ t.refused ∧ t.position < calls.length then [.abort] else []

/-! ## Transaction streams -/

/-- A statement that raises and changes nothing is one the database refused. -/
def refused : Action → Bool
  | .execute _ rows raised => rows = 0 && raised
  | .commit _ | .rollback _ | .close _ | .respond _ => false

def effects (abortsOnError : Bool) (a : Action) : List (Entry Stmt) :=
  if abortsOnError && refused a then [.abort] else Transaction.Action.entries a

def effectsOf (abortsOnError : Bool) (trace : List Action) : List (Entry Stmt) :=
  trace.flatMap (effects abortsOnError)

/-- The calls up to the first close of the proxy. -/
def beforeClose (trace : List Action) : List Action :=
  trace.takeWhile fun a => !Transaction.Action.isClose a

/-! ## Borrowers -/

/-- A borrower; `close` says that `recycledConnections.add` took its proxy. -/
inductive Borrower where
  | insertionTask (timestamp : Timestamp) (records : List DBRecordMetaData)
      (thrown : Option Thrown) (close : Bool)
  | offloadToDB (objects : List ObjectRow) (thrown : Option Thrown) (close : Bool)
  | transaction (resultSet : Option JLong) (reqs : List Message) (fin : Terminal × Outcomes)
  | other (entries : List (Entry Stmt)) (close : Bool)

/-- The connections of the pool are proxies. -/
def onProxy (jdk : Jdk) : Jdk := { jdk with proxied := true }

def transactionTrace (jdk : Jdk) (resultSet : Option JLong) (reqs : List Message)
    (fin : Terminal × Outcomes) : List Action :=
  ((Stream.start resultSet).run (onProxy jdk) (events reqs (some fin))).trace

/-- What the borrower does to the session until it closes the proxy. -/
def Borrower.turn (abortsOnError : Bool) (jdk : Jdk) : Borrower → List (Entry Stmt)
  | insertionTask timestamp records thrown _ =>
      upTo abortsOnError (InsertionTask.calls timestamp 0 records) thrown
  | offloadToDB objects thrown _ => upTo abortsOnError (offloadToDB.calls objects) thrown
  | transaction resultSet reqs fin =>
      effectsOf abortsOnError (beforeClose (transactionTrace jdk resultSet reqs fin))
  | other entries _ => entries

/-- The borrower closes the proxy, and the queue takes it. -/
def Borrower.returns (jdk : Jdk) : Borrower → Bool
  | insertionTask _ _ _ close | offloadToDB _ _ close | other _ close => close
  | transaction resultSet reqs fin =>
      (transactionTrace jdk resultSet reqs fin).find? Transaction.Action.isClose =
        some (.close true)

/-- "No Dirty checks and other problems, we assume Good Developers". -/
def closeHandler (session : Ledger Stmt) : Ledger Stmt := session

/-- One connection through its borrowers, the first of them the `k`-th. -/
def lend (abortsOnError : Bool) (jdk : Jdk) : ℕ → Ledger Stmt → List Borrower → Ledger Stmt
  | _, session, [] => session
  | k, session, b :: bs =>
      let session := session.runTurn k (b.turn abortsOnError jdk)
      if b.returns jdk then lend abortsOnError jdk (k + 1) (closeHandler session) bs
      else session

/-- Those who get the connection: the last is the first that keeps it. -/
def lentTo (jdk : Jdk) : List Borrower → List Borrower
  | [] => []
  | b :: bs => b :: if b.returns jdk then lentTo jdk bs else []

theorem lend_eq_runTurns (abortsOnError : Bool) (jdk : Jdk) (bs : List Borrower) (k : ℕ)
    (session : Ledger Stmt) :
    lend abortsOnError jdk k session bs =
      session.runTurns k ((lentTo jdk bs).map (Borrower.turn abortsOnError jdk)) := by
  induction bs generalizing k session with
  | nil => rfl
  | cons b bs ih =>
      rw [lend, lentTo]
      cases b.returns jdk with
      | true => exact ih (k + 1) _
      | false => rfl

/-! ## What a loader leaves open -/

/-- A `Throwable` comes right after an executed insert, and the database has not dropped
the work for it. -/
def CutOff (abortsOnError : Bool) (calls : List Call) (thrown : Option Thrown) : Prop :=
  ∃ t stmt, thrown = some t ∧ ¬ (abortsOnError = true ∧ t.refused = true) ∧
    (calls.take t.position).getLast? = some (.execute stmt)

theorem leftover_calls_ne_nil_iff (calls : List Call) :
    leftover (calls.map Call.entry) ≠ [] ↔ ∃ stmt, calls.getLast? = some (.execute stmt) := by
  cases calls using List.reverseRecOn with
  | nil =>
      apply iff_of_false
      · intro h
        exact h rfl
      · rintro ⟨stmt, h⟩
        cases h
  | append_singleton calls last _ =>
      rw [List.map_append, List.map_singleton,
        List.getLast?_append_of_ne_nil _ (List.cons_ne_nil _ _)]
      cases last with
      | execute stmt =>
          apply iff_of_true
          · rw [Call.entry, leftover_append_write]
            exact List.append_ne_nil_of_right_ne_nil _ (List.cons_ne_nil _ _)
          · exact ⟨stmt, rfl⟩
      | commit =>
          apply iff_of_false
          · intro h
            exact h (leftover_append_commit _)
          · rintro ⟨stmt, h⟩
            cases h

theorem leftover_upTo_ne_nil_iff (abortsOnError : Bool) {calls : List Call}
    (hlast : calls.getLast? = some .commit) (thrown : Option Thrown) :
    leftover (upTo abortsOnError calls thrown) ≠ [] ↔ CutOff abortsOnError calls thrown := by
  unfold upTo CutOff
  cases thrown with
  | none =>
      rw [leftover_calls_ne_nil_iff, hlast]
      simp
  | some t =>
      simp only [Option.some.injEq]
      by_cases hdropped : abortsOnError = true ∧ t.refused = true ∧ t.position < calls.length
      · rw [if_pos hdropped, leftover_append_abort]
        apply iff_of_false
        · intro h
          exact h rfl
        · rintro ⟨t', stmt, rfl, hkept, _⟩
          exact hkept ⟨hdropped.1, hdropped.2.1⟩
      · rw [if_neg hdropped, List.append_nil, leftover_calls_ne_nil_iff]
        constructor
        · rintro ⟨stmt, hexecuted⟩
          refine ⟨t, stmt, rfl, ?_, hexecuted⟩
          rintro ⟨haborts, hrefused⟩
          have hend : calls.length ≤ t.position := by
            by_contra hlt
            exact hdropped ⟨haborts, hrefused, Nat.lt_of_not_le hlt⟩
          rw [List.take_of_length_le hend, hlast] at hexecuted
          cases hexecuted
        · rintro ⟨t', stmt, rfl, _, hexecuted⟩
          exact ⟨stmt, hexecuted⟩

theorem InsertionTask.calls_getLast? (timestamp : Timestamp) (records : List DBRecordMetaData)
    (recsAdded : ℕ) :
    (InsertionTask.calls timestamp recsAdded records).getLast? = some .commit := by
  induction records generalizing recsAdded with
  | nil => rfl
  | cons r rs ih =>
      unfold InsertionTask.calls
      split
      · rw [List.getLast?_cons_cons, List.getLast?_cons, ih]
        rfl
      · rw [List.getLast?_cons, ih]
        rfl

theorem offloadToDB.calls_getLast? (objects : List ObjectRow) :
    (offloadToDB.calls objects).getLast? = some .commit :=
  List.getLast?_concat

/-! ## What a stream leaves open -/

/-- The database refuses the statement and drops the work of the transaction for it. -/
def StmtDrops (abortsOnError : Bool) (s : Option Stmt) (o : StmtOutcome) : Prop :=
  abortsOnError = true ∧ s.isSome = true ∧ o.prepared = true ∧ o.rows = 0 ∧ o.raised = true

/-- The database drops the work of the transaction for a statement of the message. -/
def Drops (abortsOnError : Bool) (jdk : Jdk) : Event → Prop
  | (.onNext r, o) =>
      StmtDrops abortsOnError (opStmt? jdk r 0 o.now) o.op ∨
        opVerdict jdk r o = .served ∧ StmtDrops abortsOnError (logStmt? r 0 0 o.now) o.log
  | (.onCompleted, _) | (.onError, _) => False

section Effects

variable {abortsOnError : Bool} {jdk : Jdk} {r : CmdTransactionRequest} {o : Outcomes}

@[simp] theorem effectsOf_append (t u : List Action) :
    effectsOf abortsOnError (t ++ u) = effectsOf abortsOnError t ++ effectsOf abortsOnError u := by
  simp [effectsOf]

theorem effectsOf_letsGo {t : List Action} (h : LetsGo t) : effectsOf abortsOnError t = [] := by
  refine List.flatMap_eq_nil_iff.mpr ?_
  intro a ha
  rcases h a ha with ⟨ok, rfl⟩ | ⟨m, rfl⟩ <;> simp [effects, refused, Action.entries]

theorem effectsOf_commit (ok : Bool) :
    effectsOf abortsOnError [.commit ok] = if ok then [.commit] else [] := by
  cases ok <;> simp [effectsOf, effects, refused, Action.entries]

theorem effectsOf_rollback (ok : Bool) :
    effectsOf abortsOnError [.rollback ok] = if ok then [.abort] else [] := by
  cases ok <;> simp [effectsOf, effects, refused, Action.entries]

theorem effectsOf_stmtTrace_of_drops {s : Option Stmt} {p : StmtOutcome}
    (h : StmtDrops abortsOnError s p) : effectsOf abortsOnError (stmtTrace s p) = [.abort] := by
  obtain ⟨haborts, hsome, hprepared, hrows, hraised⟩ := h
  obtain ⟨stmt, rfl⟩ := Option.isSome_iff_exists.mp hsome
  simp [effectsOf, effects, refused, stmtTrace, haborts, hprepared, hrows, hraised]

theorem effectsOf_stmtTrace {s : Option Stmt} {p : StmtOutcome}
    (h : ¬ StmtDrops abortsOnError s p) :
    effectsOf abortsOnError (stmtTrace s p) = entriesOf (stmtTrace s p) := by
  unfold stmtTrace
  cases hprepared : p.prepared with
  | false => rfl
  | true =>
      cases s with
      | none => rfl
      | some stmt =>
          have hkept : ¬ (abortsOnError = true ∧ p.rows = 0 ∧ p.raised = true) := fun hr =>
            h ⟨hr.1, rfl, hprepared, hr.2.1, hr.2.2⟩
          simp [effectsOf, entriesOf, effects, refused, hkept]

theorem isSome_opStmt? (id : JLong) (now : Timestamp) :
    (opStmt? jdk r id now).isSome = (opStmt? jdk r 0 now).isSome := by
  unfold opStmt?
  cases transType r <;> simp

theorem isSome_logStmt? (id : JLong) (k : ℕ) (now : Timestamp) :
    (logStmt? r id k now).isSome = (logStmt? r 0 0 now).isSome := by
  unfold logStmt?
  cases transType r <;> rfl

theorem opVerdict_of_drops (h : StmtDrops abortsOnError (opStmt? jdk r 0 o.now) o.op) :
    opVerdict jdk r o = .failed := by
  obtain ⟨-, hsome, hprepared, hrows, -⟩ := h
  have hbad : stmtVerdict jdk o.op = .failed := by
    simp [stmtVerdict, StmtOutcome.good, hprepared, hrows]
  have htimed : ∀ {t : Option Timestamp}, t.isSome = true →
      timedVerdict jdk t o.op = .failed := by
    intro t ht
    obtain ⟨time, rfl⟩ := Option.isSome_iff_exists.mp ht
    simp [timedVerdict, hbad]
  unfold opStmt? at hsome
  unfold opVerdict
  cases hr : transType r with
  | header => simp [hr] at hsome
  | trailer => simp [hr] at hsome
  | unrecognized => simp [hr] at hsome
  | insert => exact htimed (by simpa [hr] using hsome)
  | update => exact htimed (by simpa [hr] using hsome)
  | rename => exact hbad
  | delete => exact hbad

/-- A refused operation is the last call of its message. -/
theorem effectsOf_switch_of_drops {id : JLong}
    (h : StmtDrops abortsOnError (opStmt? jdk r id o.now) o.op) :
    effectsOf abortsOnError (switchTransSeq jdk r id o).trace = [.abort] := by
  have htrailer : transType r ≠ .trailer := by
    intro htype
    have hsome := h.2.1
    simp [opStmt?, htype] at hsome
  rw [(switchTransSeq_spec jdk r id o).2, if_neg htrailer]
  exact effectsOf_stmtTrace_of_drops h

/-- The calls of a message: its operation, and after it, if that was served, its log row. -/
theorem effectsOf_serve (abortsOnError : Bool) (jdk : Jdk) (r : CmdTransactionRequest)
    (o : Outcomes) (id : JLong) (k : ℕ) :
    (¬ Drops abortsOnError jdk (.onNext r, o) →
      effectsOf abortsOnError (serve jdk r id k o).trace = entriesOf (serve jdk r id k o).trace) ∧
    (Drops abortsOnError jdk (.onNext r, o) →
      ∃ t, effectsOf abortsOnError (serve jdk r id k o).trace = t ++ [.abort]) := by
  have hop : StmtDrops abortsOnError (opStmt? jdk r id o.now) o.op ↔
      StmtDrops abortsOnError (opStmt? jdk r 0 o.now) o.op := by
    unfold StmtDrops
    rw [isSome_opStmt?]
  have hlog : StmtDrops abortsOnError (logStmt? r id k o.now) o.log ↔
      StmtDrops abortsOnError (logStmt? r 0 0 o.now) o.log := by
    unfold StmtDrops
    rw [isSome_logStmt?]
  have htrace := (switchTransSeq_spec jdk r id o).2
  rw [serve_trace, ← htrace, effectsOf_append, entriesOf_append]
  have hswitch : ¬ StmtDrops abortsOnError (opStmt? jdk r 0 o.now) o.op →
      effectsOf abortsOnError (switchTransSeq jdk r id o).trace =
        entriesOf (switchTransSeq jdk r id o).trace := by
    intro h
    rw [htrace]
    split
    · rw [effectsOf_commit]
      cases o.commit <;> rfl
    · exact effectsOf_stmtTrace fun hr => h (hop.mp hr)
  simp only [Drops]
  by_cases hserved : opVerdict jdk r o = .served
  · have hkept : ¬ StmtDrops abortsOnError (opStmt? jdk r 0 o.now) o.op := by
      intro hr
      rw [opVerdict_of_drops hr] at hserved
      cases hserved
    rw [hswitch hkept, if_pos hserved]
    simp only [hkept, hserved, false_or, true_and]
    constructor
    · intro h
      rw [effectsOf_stmtTrace fun hr => h (hlog.mp hr)]
    · intro h
      exact ⟨_, congrArg _ (effectsOf_stmtTrace_of_drops (hlog.mpr h))⟩
  · simp only [hserved, if_false, false_and, or_false]
    constructor
    · intro h
      rw [hswitch h]
      rfl
    · intro h
      exact ⟨[], by rw [effectsOf_switch_of_drops (hop.mpr h)]; rfl⟩

end Effects

/-- The calls of an observer, callback after callback. -/
def callsOf (jdk : Jdk) : Observer → List Event → List Action
  | _, [] => []
  | obs, e :: es => (obs.callback jdk e).2.trace ++ callsOf jdk (obs.callback jdk e).1 es

theorem trace_run (jdk : Jdk) (es : List Event) (st : Stream) :
    (st.run jdk es).trace = st.trace ++ callsOf jdk st.observer es := by
  induction es generalizing st with
  | nil => exact (List.append_nil _).symm
  | cons e es ih =>
      rw [Stream.run_cons, ih, callsOf, ← List.append_assoc]
      rfl

theorem beforeClose_append_of_none {t : List Action} (h : t.countP Action.isClose = 0)
    (u : List Action) : beforeClose (t ++ u) = t ++ beforeClose u := by
  apply List.takeWhile_append_of_pos
  intro a ha
  have hclose := List.countP_eq_zero.mp h a ha
  simpa using hclose

/-- What comes after a close is left out. -/
theorem beforeClose_of_close {t : List Action} (h : t.countP Action.isClose = 0) (ok : Bool)
    (u : List Action) : beforeClose (t ++ .close ok :: u) = t := by
  rw [beforeClose_append_of_none h]
  exact List.append_nil t

theorem find?_append_of_none {t : List Action} (h : t.countP Action.isClose = 0)
    (u : List Action) : (t ++ u).find? Action.isClose = u.find? Action.isClose := by
  have hnone : t.find? Action.isClose = none :=
    List.find?_eq_none.mpr (List.countP_eq_zero.mp h)
  rw [List.find?_append, hnone, Option.none_or]

section Known

variable {abortsOnError : Bool} {jdk : Jdk} {id : JLong}

/-- Where the database drops the work the callback goes on to `onError`. -/
theorem not_drops_of_open {e : Event} (h : closesEvent jdk e = false) :
    ¬ Drops abortsOnError jdk e := by
  rcases e with ⟨cb, o⟩
  cases cb with
  | onCompleted => exact id
  | onError => cases h
  | onNext r =>
      have hverdict : verdict jdk r o ≠ .failed := of_decide_eq_false h
      rintro (hop | ⟨hserved, hlog⟩)
      · apply hverdict
        simp only [verdict, opVerdict_of_drops hop]
      · apply hverdict
        have htrailer : transType r ≠ .trailer := by
          intro htype
          have hsome := hlog.2.1
          simp [logStmt?, htype] at hsome
        obtain ⟨_, _, hprepared, hrows, _⟩ := hlog
        simp [verdict, hserved, logVerdict, htrailer, stmtVerdict, StmtOutcome.good, hprepared,
          hrows]

/-- A callback that leaves the proxy open does its block. -/
theorem effectsOf_open {obs : Observer} (h : obs.txnId = some id) {e : Event}
    (hopen : closesEvent jdk e = false) :
    effectsOf abortsOnError (obs.callback jdk e).2.trace =
      (eventBlock jdk id obs.transpartIndex e).entries := by
  have hkept : ¬ Drops abortsOnError jdk e := not_drops_of_open hopen
  rw [← Observer.callback_entries jdk obs h e]
  rcases e with ⟨cb, o⟩
  cases cb with
  | onCompleted =>
      obtain ⟨rest, htrace, hrest⟩ := Observer.onCompleted_calls jdk obs o
      rw [Observer.callback, Observer.onCompleted_entries, htrace, ← List.singleton_append,
        effectsOf_append, effectsOf_letsGo hrest, effectsOf_commit, List.append_nil]
  | onError => cases hopen
  | onNext r =>
      have hverdict : verdict jdk r o ≠ .failed := of_decide_eq_false hopen
      have hserve := (effectsOf_serve abortsOnError jdk r o id obs.transpartIndex).1 hkept
      rw [Observer.callback,
        (Observer.onNext_spec jdk obs r o (Observer.readTxnId_known h o)).2]
      cases hv : verdict jdk r o with
      | served => exact hserve
      | escaped => exact hserve
      | failed => exact absurd hv hverdict

/-- A callback that closes the proxy does its block before, or ends with a refusal. -/
theorem effectsOf_closing {obs : Observer} (h : obs.txnId = some id) {e : Event}
    (hcloses : closesEvent jdk e = true) :
    ∃ t u, (obs.callback jdk e).2.trace = t ++ .close e.2.close :: u ∧
      t.countP Action.isClose = 0 ∧
      (¬ Drops abortsOnError jdk e →
        effectsOf abortsOnError t = (eventBlock jdk id obs.transpartIndex e).entries) ∧
      (Drops abortsOnError jdk e → ∃ t', effectsOf abortsOnError t = t' ++ [.abort]) := by
  rcases e with ⟨cb, o⟩
  cases cb with
  | onCompleted =>
      have htrace := (Observer.onCompleted_spec jdk obs o).1
      rw [show completionCloses jdk o = true from hcloses] at htrace
      refine ⟨[.commit o.commit], _, htrace, rfl, ?_, fun hr => hr.elim⟩
      intro _
      rw [effectsOf_commit]
      simp only [eventBlock, eventWrites, eventEnding]
      cases o.commit <;> rfl
  | onError =>
      refine ⟨[.rollback o.rollback], _, (Observer.onError_spec jdk obs o).1, rfl, ?_,
        fun hr => hr.elim⟩
      intro _
      rw [effectsOf_rollback]
      simp only [eventBlock, eventWrites, eventEnding]
      cases o.rollback <;> rfl
  | onNext r =>
      have hentries := (serve_spec jdk r id obs.transpartIndex o).2
      have hfailed : verdict jdk r o = .failed := of_decide_eq_true hcloses
      have hspec := (Observer.onNext_spec jdk obs r o (Observer.readTxnId_known h o)).2
      rw [hfailed] at hspec
      have hserve := effectsOf_serve abortsOnError jdk r o id obs.transpartIndex
      obtain ⟨u, hu⟩ : ∃ u, ({ obs with txnId := some id }.onError jdk o).trace =
          .rollback o.rollback :: .close o.close :: u :=
        ⟨_, (Observer.onError_spec jdk _ o).1⟩
      refine ⟨(serve jdk r id obs.transpartIndex o).trace ++ [.rollback o.rollback], u,
        ?_, ?_, ?_, ?_⟩
      · rw [Observer.callback, hspec]
        show (serve jdk r id obs.transpartIndex o).trace ++ _ = _
        rw [hu, List.append_assoc, List.singleton_append]
      · rw [List.countP_append, serve_closes]
        rfl
      · intro hkept
        have hnot : verdict jdk r o ≠ .served := by simp [hfailed]
        rw [effectsOf_append, hserve.1 hkept, hentries, effectsOf_rollback,
          serveEnding_of_not_served hnot]
        simp only [eventBlock, eventWrites, eventEnding, hfailed, Block.entries, Ending.entries]
        cases o.rollback <;> simp
      · intro hdrops
        obtain ⟨t, ht⟩ := hserve.2 hdrops
        rw [effectsOf_append, ht, effectsOf_rollback]
        cases o.rollback
        · exact ⟨t, List.append_nil _⟩
        · exact ⟨t ++ [.abort], rfl⟩

/-- The stream's turn is the blocks of its callbacks up to the one that closes. -/
theorem effectsOf_beforeClose (abortsOnError : Bool) {obs : Observer} (h : obs.txnId = some id)
    {pre : List Event} {e : Event} (post : List Event) (hpre : ∀ d ∈ pre, closesEvent jdk d = false)
    (hcloses : closesEvent jdk e = true) :
    (callsOf jdk obs (pre ++ e :: post)).find? Action.isClose = some (.close e.2.close) ∧
    (¬ Drops abortsOnError jdk e →
      effectsOf abortsOnError (beforeClose (callsOf jdk obs (pre ++ e :: post))) =
        (blocks jdk id obs.transpartIndex (pre ++ [e])).flatMap Block.entries) ∧
    (Drops abortsOnError jdk e →
      ∃ t, effectsOf abortsOnError (beforeClose (callsOf jdk obs (pre ++ e :: post))) =
        t ++ [.abort]) := by
  induction pre generalizing obs with
  | nil =>
      obtain ⟨t, u, htrace, hopen, hblock, habort⟩ := effectsOf_closing h hcloses
      rw [List.nil_append, callsOf, htrace, List.append_assoc, List.cons_append,
        beforeClose_of_close hopen, find?_append_of_none hopen]
      refine ⟨rfl, ?_, habort⟩
      intro hnot
      rw [hblock hnot]
      exact (List.append_nil _).symm
  | cons d pre ih =>
      rw [List.forall_mem_cons] at hpre
      have hnone : (obs.callback jdk d).2.trace.countP Action.isClose = 0 := by
        rw [Observer.callback_closes jdk obs h, hpre.1]
        rfl
      have hobs := Observer.callback_observer jdk obs h d
      have hknown : (obs.callback jdk d).1.txnId = some id := by
        rw [hobs]
        exact h
      have hindex : (obs.callback jdk d).1.transpartIndex = nextIndex jdk obs.transpartIndex d := by
        rw [hobs]
      have hrest := ih hknown hpre.2
      rw [hindex] at hrest
      rw [List.cons_append, callsOf, beforeClose_append_of_none hnone, find?_append_of_none hnone,
        effectsOf_append, effectsOf_open h hpre.1]
      refine ⟨hrest.1, ?_, ?_⟩
      · intro hnot
        rw [hrest.2.1 hnot]
        rfl
      · intro hdrops
        obtain ⟨t, ht⟩ := hrest.2.2 hdrops
        exact ⟨_, by rw [ht, ← List.append_assoc]⟩

/-- A stream whose callbacks all leave the proxy open keeps it. -/
theorem find?_callsOf_open {obs : Observer} (h : obs.txnId = some id) (es : List Event)
    (hes : ∀ d ∈ es, closesEvent jdk d = false) :
    (callsOf jdk obs es).find? Action.isClose = none := by
  induction es generalizing obs with
  | nil => rfl
  | cons d es ih =>
      rw [List.forall_mem_cons] at hes
      have hnone : (obs.callback jdk d).2.trace.countP Action.isClose = 0 := by
        rw [Observer.callback_closes jdk obs h, hes.1]
        rfl
      have hknown : (obs.callback jdk d).1.txnId = some id := by
        rw [Observer.callback_observer jdk obs h d]
        exact h
      rw [callsOf, find?_append_of_none hnone]
      exact ih hknown hes.2

end Known

/-! ## Borrowers that leave work open -/

/-- A message has changed a row, and since then no commit and no rollback has gone through. -/
def WorkOpen (jdk : Jdk) (es : List Event) : Prop :=
  ∃ before w after, es = before ++ w :: after ∧ Executes jdk w ∧
    (¬ Commits w ∧ ¬ RollsBack jdk w) ∧ ∀ d ∈ after, ¬ Commits d ∧ ¬ RollsBack jdk d

theorem staysOpen_blocks (jdk : Jdk) (id : JLong) (es : List Event) (k : ℕ) :
    StaysOpen (blocks jdk id k es) ↔ WorkOpen jdk es := by
  have hkeep : ∀ (es : List Event) (k : ℕ), (∀ b ∈ blocks jdk id k es, b.ending = .keep) ↔
      ∀ d ∈ es, ¬ Commits d ∧ ¬ RollsBack jdk d := by
    intro es
    induction es with
    | nil => simp [blocks]
    | cons e es ih =>
        intro k
        simp only [blocks, List.forall_mem_cons, ih, eventBlock, eventEnding_keep_iff]
  induction es generalizing k with
  | nil =>
      apply iff_of_false not_staysOpen_nil
      rintro ⟨before, w, after, h, _⟩
      exact List.append_ne_nil_of_right_ne_nil before (List.cons_ne_nil w after) h.symm
  | cons e es ih =>
      have hrest := ih (nextIndex jdk k e)
      rw [blocks, staysOpen_cons, hkeep, or_congr Iff.rfl hrest]
      unfold WorkOpen
      rw [exists_split_cons fun _ w (after : List Event) => Executes jdk w ∧
        (¬ Commits w ∧ ¬ RollsBack jdk w) ∧ ∀ d ∈ after, ¬ Commits d ∧ ¬ RollsBack jdk d]
      simp only [eventBlock, eventEnding_keep_iff, eventWrites_ne_nil_iff]

/-- The stream has its id, and the first callback that closes the proxy gives it back with
work open that neither its own commit or rollback nor a refusal by the database ends. -/
def StreamLeavesOpen (abortsOnError : Bool) (jdk : Jdk) (resultSet : Option JLong)
    (es : List Event) : Prop :=
  (∃ id, Opens resultSet es id) ∧ ∃ pre e post, es = pre ++ e :: post ∧
    (∀ d ∈ pre, closesEvent jdk d = false) ∧ closesEvent jdk e = true ∧ e.2.close = true ∧
    ¬ Drops abortsOnError jdk e ∧ WorkOpen jdk (pre ++ [e])

/-- The borrower gives the connection back with work of its own open. -/
def Borrower.LeavesOpen (abortsOnError : Bool) (jdk : Jdk) : Borrower → Prop
  | insertionTask timestamp records thrown close =>
      close = true ∧ CutOff abortsOnError (InsertionTask.calls timestamp 0 records) thrown
  | offloadToDB objects thrown close =>
      close = true ∧ CutOff abortsOnError (offloadToDB.calls objects) thrown
  | transaction resultSet reqs fin =>
      StreamLeavesOpen abortsOnError (onProxy jdk) resultSet (events reqs (some fin))
  | other entries close => close = true ∧ leftover entries ≠ []

section Unknown

variable {abortsOnError : Bool} {obs : Observer}

/-- A callback that begins with a commit or a rollback and lets go leaves nothing. -/
theorem leftover_letsGo {a : Action} (ha : (∃ ok, a = .commit ok) ∨ ∃ ok, a = .rollback ok)
    {rest : List Action} (hrest : LetsGo rest) :
    leftover (effectsOf abortsOnError (beforeClose (a :: rest))) = [] := by
  have hopen : [a].countP Action.isClose = 0 := by
    rcases ha with ⟨ok, rfl⟩ | ⟨ok, rfl⟩ <;> rfl
  have hletsGo : LetsGo (beforeClose rest) := fun b hb =>
    hrest b ((List.takeWhile_sublist _).subset hb)
  rw [← List.singleton_append, beforeClose_append_of_none hopen, effectsOf_append,
    effectsOf_letsGo hletsGo, List.append_nil]
  rcases ha with ⟨ok, rfl⟩ | ⟨ok, rfl⟩
  · rw [effectsOf_commit]
    cases ok <;> rfl
  · rw [effectsOf_rollback]
    cases ok <;> rfl

/-- The end of a stream has nothing of its own to leave. -/
theorem leftover_end (jdk : Jdk) (obs : Observer) (fin : Terminal × Outcomes) :
    leftover (effectsOf abortsOnError
      (beforeClose (callsOf jdk obs (events [] (some fin))))) = [] := by
  rcases fin with ⟨t, o⟩
  rw [Stream.events_nil, callsOf, callsOf, List.append_nil]
  cases t with
  | halfClose =>
      obtain ⟨rest, htrace, hrest⟩ := Observer.onCompleted_calls jdk obs o
      rw [Terminal.callback, Observer.callback, htrace]
      exact leftover_letsGo (.inl ⟨_, rfl⟩) hrest
  | cancel =>
      obtain ⟨rest, htrace, hrest⟩ := Observer.onError_calls jdk obs o
      rw [Terminal.callback, Observer.callback, htrace]
      exact leftover_letsGo (.inr ⟨_, rfl⟩) hrest

/-- Without a result set every message raises a `NullPointerException`. -/
theorem leftover_no_resultSet (jdk : Jdk) (h : obs.txnId = none) (hnull : obs.resultSet = none)
    (reqs : List Message) (fin : Terminal × Outcomes) :
    leftover (effectsOf abortsOnError
      (beforeClose (callsOf jdk obs (events reqs (some fin))))) = [] := by
  induction reqs with
  | nil => exact leftover_end jdk obs fin
  | cons q reqs ih =>
      have hcall : obs.callback jdk (.onNext q.1, q.2) =
          (obs, Jdbc.throw .nullPointerException) := by
        rcases obs with ⟨txnId, k, resultSet⟩
        cases h
        cases hnull
        rfl
      rw [Stream.events_cons, callsOf, hcall]
      exact ih

/-- A first message that cannot read the id rolls back, with nothing executed. -/
theorem leftover_unread (jdk : Jdk) (id : JLong) (q : Message) (hget : q.2.getLong = false)
    (es : List Event) :
    leftover (effectsOf abortsOnError (beforeClose (callsOf jdk
      (Stream.start (some id)).observer ((.onNext q.1, q.2) :: es)))) = [] := by
  have hread : ((Stream.start (some id)).observer.readTxnId q.2).result =
      .error .sqlException := by
    simp [Stream.start, Observer.readTxnId, hget]
  obtain ⟨u, hu⟩ : ∃ u, ((Stream.start (some id)).observer.onError jdk q.2).trace =
      .rollback q.2.rollback :: .close q.2.close :: u :=
    ⟨_, (Observer.onError_spec jdk (Stream.start (some id)).observer q.2).1⟩
  have htrace : ((Stream.start (some id)).observer.callback jdk (.onNext q.1, q.2)).2.trace =
      .rollback q.2.rollback :: .close q.2.close :: u := by
    simp only [Observer.callback, Observer.onNext, hread]
    exact hu
  have hclose : ∀ rest, .rollback q.2.rollback :: .close q.2.close :: u ++ rest =
      [.rollback q.2.rollback] ++ .close q.2.close :: (u ++ rest) := fun _ => rfl
  rw [callsOf, htrace, hclose, beforeClose_of_close rfl, effectsOf_rollback]
  cases q.2.rollback <;> rfl

end Unknown

theorem leftover_of_not_opens {abortsOnError : Bool} {jdk : Jdk} {resultSet : Option JLong}
    {reqs : List Message} {fin : Terminal × Outcomes}
    (h : ¬ ∃ id, Opens resultSet (events reqs (some fin)) id) :
    leftover (effectsOf abortsOnError (beforeClose (callsOf jdk (Stream.start resultSet).observer
      (events reqs (some fin))))) = [] := by
  cases resultSet with
  | none => exact leftover_no_resultSet jdk rfl rfl reqs fin
  | some id =>
      cases reqs with
      | nil => exact leftover_end jdk _ fin
      | cons q reqs =>
          cases hget : q.2.getLong with
          | false => exact leftover_unread jdk id q hget _
          | true => exact absurd ⟨id, rfl, q.1, q.2, _, rfl, hget⟩ h

theorem transactionTrace_eq (jdk : Jdk) (resultSet : Option JLong) (reqs : List Message)
    (fin : Terminal × Outcomes) :
    transactionTrace jdk resultSet reqs fin =
      callsOf (onProxy jdk) (Stream.start resultSet).observer (events reqs (some fin)) :=
  trace_run (onProxy jdk) (events reqs (some fin)) (Stream.start resultSet)

theorem transactionTrace_known (jdk : Jdk) {resultSet : Option JLong} {reqs : List Message}
    {fin : Terminal × Outcomes} {id : JLong} (h : Opens resultSet (events reqs (some fin)) id) :
    transactionTrace jdk resultSet reqs fin =
      callsOf (onProxy jdk) (Stream.known id).observer (events reqs (some fin)) := by
  have hrun := congrArg Stream.trace (Stream.run_start (onProxy jdk) h)
  rw [trace_run (onProxy jdk) _ (Stream.known id)] at hrun
  exact hrun

/-- A stream whose messages leave the proxy open and whose last commit raises keeps the
connection for good. -/
theorem keeps_of_commit_raised {jdk : Jdk} {resultSet : Option JLong} {reqs : List Message}
    {o : Outcomes} {id : JLong} (hid : Opens resultSet (events reqs (some (.halfClose, o))) id)
    (hopen : ∀ q ∈ reqs, closesEvent (onProxy jdk) (.onNext q.1, q.2) = false)
    (hcommit : o.commit = false) :
    Borrower.returns jdk (.transaction resultSet reqs (.halfClose, o)) = false := by
  have hknown : (Stream.known id).observer.txnId = some id := rfl
  rw [Borrower.returns, transactionTrace_known jdk hid, find?_callsOf_open hknown]
  · rfl
  intro d hd
  rcases List.mem_append.mp hd with hd | hd
  · obtain ⟨q, hq, rfl⟩ := List.mem_map.mp hd
    exact hopen q hq
  · cases List.mem_singleton.mp hd
    simp [closesEvent, Terminal.callback, completionCloses, onProxy, hcommit]

theorem leftover_blocks_ne_nil_iff (jdk : Jdk) (id : JLong) (es : List Event) :
    leftover ((blocks jdk id 0 es).flatMap Block.entries) ≠ [] ↔ WorkOpen jdk es := by
  have hstays := pending_runBlocks_ne_nil_iff Session.fresh (blocks jdk id 0 es)
  rw [staysOpen_blocks] at hstays
  exact hstays.trans (or_iff_right fun hfresh => hfresh.1 rfl)

/-- A proxy that is closed is closed by some callback first. -/
theorem exists_first_close {jdk : Jdk} {obs : Observer} {id : JLong} (h : obs.txnId = some id)
    {es : List Event} (hclosed : (callsOf jdk obs es).find? Action.isClose ≠ none) :
    ∃ pre e post, es = pre ++ e :: post ∧ (∀ d ∈ pre, closesEvent jdk d = false) ∧
      closesEvent jdk e = true := by
  cases hfirst : es.find? (closesEvent jdk) with
  | none =>
      refine absurd (find?_callsOf_open h es ?_) hclosed
      intro d hd
      simpa using List.find?_eq_none.mp hfirst d hd
  | some e =>
      obtain ⟨he, pre, post, heq, hpre⟩ := List.find?_eq_some_iff_append.mp hfirst
      exact ⟨pre, e, post, heq, by simpa using hpre, he⟩

theorem leavesOpen_stream_iff (abortsOnError : Bool) (jdk : Jdk) (resultSet : Option JLong)
    (reqs : List Message) (fin : Terminal × Outcomes) :
    Borrower.returns jdk (.transaction resultSet reqs fin) = true ∧
        leftover (Borrower.turn abortsOnError jdk (.transaction resultSet reqs fin)) ≠ [] ↔
      StreamLeavesOpen abortsOnError (onProxy jdk) resultSet (events reqs (some fin)) := by
  simp only [Borrower.returns, Borrower.turn, decide_eq_true_eq]
  by_cases hopens : ∃ id, Opens resultSet (events reqs (some fin)) id
  · obtain ⟨id, hid⟩ := hopens
    have hknown : (Stream.known id).observer.txnId = some id := rfl
    rw [transactionTrace_known jdk hid]
    constructor
    · rintro ⟨hreturns, hleft⟩
      obtain ⟨pre, e, post, heq, hpre, he⟩ :=
        exists_first_close hknown (by rw [hreturns]; exact Option.some_ne_none _)
      obtain ⟨hclose, hkept, hdropped⟩ := effectsOf_beforeClose abortsOnError hknown post hpre he
      rw [heq] at hleft hreturns
      have hnot : ¬ Drops abortsOnError (onProxy jdk) e := by
        intro hdrops
        obtain ⟨t, ht⟩ := hdropped hdrops
        rw [ht] at hleft
        exact hleft (leftover_append_abort t)
      rw [hkept hnot] at hleft
      have hback : e.2.close = true := by
        have hsome := hclose.symm.trans hreturns
        simpa using hsome
      exact ⟨⟨id, hid⟩, pre, e, post, heq, hpre, he, hback, hnot,
        (leftover_blocks_ne_nil_iff _ _ _).mp hleft⟩
    · rintro ⟨_, pre, e, post, heq, hpre, he, hback, hnot, hopen⟩
      have hturn := effectsOf_beforeClose abortsOnError hknown post hpre he
      rw [heq, hturn.1, hturn.2.1 hnot, hback]
      exact ⟨rfl, (leftover_blocks_ne_nil_iff _ _ _).mpr hopen⟩
  · apply iff_of_false
    · rintro ⟨-, hleft⟩
      rw [transactionTrace_eq] at hleft
      exact hleft (leftover_of_not_opens hopens)
    · intro h
      exact hopens h.1

theorem leavesOpen_iff (abortsOnError : Bool) (jdk : Jdk) (b : Borrower) :
    b.returns jdk = true ∧ leftover (b.turn abortsOnError jdk) ≠ [] ↔
      b.LeavesOpen abortsOnError jdk := by
  cases b with
  | insertionTask timestamp records thrown close =>
      exact and_congr Iff.rfl (leftover_upTo_ne_nil_iff abortsOnError
        (InsertionTask.calls_getLast? timestamp records 0) thrown)
  | offloadToDB objects thrown close =>
      exact and_congr Iff.rfl (leftover_upTo_ne_nil_iff abortsOnError
        (offloadToDB.calls_getLast? objects) thrown)
  | transaction resultSet reqs fin =>
      exact leavesOpen_stream_iff abortsOnError jdk resultSet reqs fin
  | other entries close => exact Iff.rfl

/-! ## Isolation -/

/-- One of the borrowers commits, and those before it give the connection back without
having committed or been rolled back. -/
def CommitReached (abortsOnError : Bool) (jdk : Jdk) (bs : List Borrower) : Prop :=
  ∃ mid c rest, bs = mid ++ c :: rest ∧ firstEnding (c.turn abortsOnError jdk) = .commit ∧
    ∀ m ∈ mid, m.returns jdk = true ∧ firstEnding (m.turn abortsOnError jdk) = .keep

/-- A borrower gives the connection back with work open, and a later borrower's commit is
what ends it. -/
def LeftToOthers (abortsOnError : Bool) (jdk : Jdk) (bs : List Borrower) : Prop :=
  ∃ pre b rest, bs = pre ++ b :: rest ∧ (∀ p ∈ pre, p.returns jdk = true) ∧
    b.LeavesOpen abortsOnError jdk ∧ CommitReached abortsOnError jdk rest

theorem reached_turns (abortsOnError : Bool) (jdk : Jdk) (bs : List Borrower) :
    Reached ((lentTo jdk bs).map (Borrower.turn abortsOnError jdk)) ↔
      CommitReached abortsOnError jdk bs := by
  induction bs with
  | nil =>
      apply iff_of_false not_reached_nil
      rintro ⟨mid, c, rest, h, _⟩
      exact List.append_ne_nil_of_right_ne_nil mid (List.cons_ne_nil c rest) h.symm
  | cons b bs ih =>
      unfold CommitReached
      rw [lentTo, List.map_cons, reached_cons,
        exists_split_cons fun (mid : List Borrower) c _ =>
          firstEnding (c.turn abortsOnError jdk) = .commit ∧ ∀ m ∈ mid,
            m.returns jdk = true ∧ firstEnding (m.turn abortsOnError jdk) = .keep]
      simp only [List.forall_mem_cons]
      cases hreturns : b.returns jdk with
      | true =>
          rw [if_pos rfl, ih]
          unfold CommitReached
          constructor
          · rintro (hcommit | ⟨hkeep, mid, c, rest, heq, hc, hmid⟩)
            · exact Or.inl ⟨hcommit, fun m hm => absurd hm List.not_mem_nil⟩
            · exact Or.inr ⟨mid, c, rest, heq, hc, ⟨rfl, hkeep⟩, hmid⟩
          · rintro (⟨hcommit, _⟩ | ⟨mid, c, rest, heq, hc, ⟨_, hkeep⟩, hmid⟩)
            · exact Or.inl hcommit
            · exact Or.inr ⟨hkeep, mid, c, rest, heq, hc, hmid⟩
      | false =>
          -- nobody is lent the connection after `b`
          rw [if_neg Bool.false_ne_true, List.map_nil]
          constructor
          · rintro (hcommit | ⟨_, hreached⟩)
            · exact Or.inl ⟨hcommit, fun m hm => absurd hm List.not_mem_nil⟩
            · exact absurd hreached not_reached_nil
          · rintro (⟨hcommit, _⟩ | ⟨mid, c, rest, heq, hc, ⟨hback, _⟩, _⟩)
            · exact Or.inl hcommit
            · cases hback

theorem handsOver_turns (abortsOnError : Bool) (jdk : Jdk) (bs : List Borrower) :
    HandsOver ((lentTo jdk bs).map (Borrower.turn abortsOnError jdk)) ↔
      LeftToOthers abortsOnError jdk bs := by
  induction bs with
  | nil =>
      apply iff_of_false not_handsOver_nil
      rintro ⟨pre, b, rest, h, _⟩
      exact List.append_ne_nil_of_right_ne_nil pre (List.cons_ne_nil b rest) h.symm
  | cons b bs ih =>
      unfold LeftToOthers
      rw [lentTo, List.map_cons, handsOver_cons,
        exists_split_cons fun (pre : List Borrower) b rest =>
          (∀ p ∈ pre, p.returns jdk = true) ∧ b.LeavesOpen abortsOnError jdk ∧
            CommitReached abortsOnError jdk rest]
      simp only [List.forall_mem_cons, ← leavesOpen_iff]
      cases hreturns : b.returns jdk with
      | true =>
          rw [if_pos rfl, ih, reached_turns]
          simp [LeftToOthers, ← leavesOpen_iff]
      | false =>
          rw [if_neg Bool.false_ne_true, List.map_nil]
          simp [not_reached_nil, not_handsOver_nil]

/-- **No borrower's commit makes another's work durable exactly when** no work that a
borrower leaves open reaches a commit before a rollback. -/
theorem lend_isolated_iff (abortsOnError : Bool) (jdk : Jdk) (bs : List Borrower) :
    (lend abortsOnError jdk 0 Ledger.fresh bs).Isolated ↔
      ¬ LeftToOthers abortsOnError jdk bs := by
  rw [lend_eq_runTurns, Foundation.Handover.isolated_iff, handsOver_turns]

/-- On H2 an insert that the database refuses leaves the one before it to the next task. -/
example :
    (lend false Jdk.ascii 0 Ledger.fresh
      [.insertionTask ⟨0⟩ (dataLoadFromCSV.objForRow 0 ⟨7, 0, 2⟩) (some ⟨1, true⟩) true,
        .other [.commit] true]).durable.map (fun c => (c.writer, c.committer)) = [(0, 1)] := by
  decide +kernel

/-- An `InsertionTask` that loses its second insert to a `Throwable`, and the next one. -/
def interruptedLoad : List Borrower :=
  [.insertionTask ⟨0⟩ (dataLoadFromCSV.objForRow 0 ⟨7, 0, 2⟩) (some ⟨1, false⟩) true,
    .insertionTask ⟨0⟩ (dataLoadFromCSV.objForRow 1 ⟨7, 0, 1⟩) none true]

/-- The first insert was never committed by its task; the next task's commit does it. -/
theorem committed_by_next :
    (lend true Jdk.ascii 0 Ledger.fresh interruptedLoad).durable.map
        (fun c => (c.writer, c.committer)) = [(0, 1), (1, 1)] ∧
      ¬ (lend true Jdk.ascii 0 Ledger.fresh interruptedLoad).Isolated := by
  have hdurable : (lend true Jdk.ascii 0 Ledger.fresh interruptedLoad).durable.map
      (fun c => (c.writer, c.committer)) = [(0, 1), (1, 1)] := by
    decide +kernel
  refine ⟨hdurable, ?_⟩
  intro h
  have hmem : ((0, 1) : ℕ × ℕ) ∈ (lend true Jdk.ascii 0 Ledger.fresh
      interruptedLoad).durable.map (fun c => (c.writer, c.committer)) := by
    rw [hdurable]
    exact List.mem_cons_self
  obtain ⟨c, hc, heq⟩ := List.mem_map.mp hmem
  have hsame := h c hc
  rw [(Prod.mk.inj heq).1, (Prod.mk.inj heq).2] at hsame
  cases hsame

end AuroraSizing.Borrowers

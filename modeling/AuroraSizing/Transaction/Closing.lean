import AuroraSizing.Transaction.Absorbing
import AuroraSizing.Transaction.Atomicity

/-!
# One close, one answer

gRPC delivers messages and then one end, and nothing once the observer has ended the
call with its response. Whatever the messages hold and whichever statements fail, the
observer then closes its connection once and answers once, provided the first message
found the transaction id and the id fits the `int` of the response. Without an id
`Optional.get` throws where the response is built, and an id that does not fit makes
`Math.toIntExact` throw there; both come after the close. On a proxy the callback that
closes has to get past the connection besides: a rollback or a close that raises leaves
no answer, and a commit of `onCompleted` that raises not even a close.

Whether that one answer leaves the server is a second question: an exception that
escapes `onNext` ends the call before it, and so does a client that cancels.
-/

namespace AuroraSizing

/-- The transaction id a statement stores. -/
def Stmt.stampedId? : Stmt → Option JLong
  | .insertRecords row => some row.lastTransaction
  | .updateRecords set _ => some set.lastTransaction
  | .renameRecords set _ => some set.lastTransaction
  | .deleteRecords _ => none
  | .insertTransHeader row => some row.txnlogTransId
  | .insertTransParts row => some row.txnlogTransId

def TransMsgResponse.txnId : TransMsgResponse → JInt
  | .msgOnSuccess _ txnId | .msgOnFailure _ txnId => txnId

namespace Transaction

def Action.isClose : Action → Bool
  | .close _ => true
  | .execute _ _ _ | .commit _ | .rollback _ | .respond _ => false

namespace Stream

/-- How often the observer has closed its connection. -/
def closes (st : Stream) : ℕ := st.trace.countP Action.isClose

/-- The responses the observer has given to gRPC, sent or not. -/
def responses (st : Stream) : List TransMsgResponse := st.trace.filterMap Action.response?

/-- The callback ends the call with a response. -/
def ends (jdk : Jdk) (st : Stream) (e : Event) : Bool :=
  !((st.observer.callback jdk e).2.trace.filterMap Action.response?).isEmpty

/-- What gRPC delivers of these callbacks: nothing after the observer has ended the
call. -/
def delivered (jdk : Jdk) : Stream → List Event → List Event
  | _, [] => []
  | st, e :: es => e :: if st.ends jdk e then [] else delivered jdk (st.deliver jdk e) es

/-- A stream whose client sends `reqs` and then ends its side. -/
def toEnd (jdk : Jdk) (resultSet : Option JLong) (reqs : List Message)
    (fin : Terminal × Outcomes) : Stream :=
  run jdk (start resultSet) (delivered jdk (start resultSet) (events reqs (some fin)))

/-- One close, and one response with the id of every row the stream stamped. -/
structure ClosesAndAnswersOnce (st : Stream) : Prop where
  closes : st.closes = 1
  answers : ∃ m, st.responses = [m] ∧
    ∀ s rows raised, .execute s rows raised ∈ st.trace →
      ∀ id, s.stampedId? = some id → m.txnId.signExtend 64 = id

end Stream

/-! ## What a callback calls -/

theorem mem_stmtTrace {s : Option Stmt} {o : StmtOutcome} {a : Action} (h : a ∈ stmtTrace s o) :
    ∃ t ∈ s.toList, ∃ rows raised, a = .execute t rows raised := by
  unfold stmtTrace at h
  split at h
  · obtain ⟨t, ht, rfl⟩ := List.mem_map.mp h
    exact ⟨t, ht, _, _, rfl⟩
  · cases h

/-- Serving a message commits and executes the message's own statements, nothing else. -/
theorem mem_serve_trace {jdk : Jdk} {r : CmdTransactionRequest} {id : JLong} {k : ℕ}
    {o : Outcomes} {a : Action} (h : a ∈ (serve jdk r id k o).trace) :
    (∃ ok, a = .commit ok) ∨
      ∃ s ∈ messageStmts jdk r id k o.now, ∃ rows raised, a = .execute s rows raised := by
  rw [serve_trace] at h
  rcases List.mem_append.mp h with hop | hlog
  · split at hop
    · exact .inl ⟨_, List.mem_singleton.mp hop⟩
    · obtain ⟨s, hs, hexec⟩ := mem_stmtTrace hop
      exact .inr ⟨s, List.mem_append_left _ hs, hexec⟩
  · split at hlog
    · obtain ⟨s, hs, hexec⟩ := mem_stmtTrace hlog
      exact .inr ⟨s, List.mem_append_right _ hs, hexec⟩
    · cases hlog

/-- Every id that a message stores is the id of its stream. -/
theorem stampedId_of_mem_messageStmts {jdk : Jdk} {r : CmdTransactionRequest} {id v : JLong}
    {k : ℕ} {now : Timestamp} {s : Stmt} (hs : s ∈ messageStmts jdk r id k now)
    (hv : s.stampedId? = some v) : v = id := by
  simp only [messageStmts, opStmt?, logStmt?, List.mem_append, Option.mem_toList] at hs
  cases hr : transType r with
  | header =>
      simp only [hr, reduceCtorEq, false_or, Option.some.injEq] at hs
      subst hs
      exact (Option.some.inj hv).symm
  | trailer => simp [hr] at hs
  | unrecognized =>
      simp only [hr, reduceCtorEq, false_or, Option.some.injEq] at hs
      subst hs
      exact (Option.some.inj hv).symm
  | insert =>
      simp only [hr, Option.map_eq_some_iff, Option.some.injEq] at hs
      rcases hs with ⟨t, -, rfl⟩ | rfl <;> exact (Option.some.inj hv).symm
  | update =>
      simp only [hr, Option.map_eq_some_iff, Option.some.injEq] at hs
      rcases hs with ⟨t, -, rfl⟩ | rfl <;> exact (Option.some.inj hv).symm
  | rename =>
      simp only [hr, Option.some.injEq] at hs
      rcases hs with rfl | rfl <;> exact (Option.some.inj hv).symm
  | delete =>
      simp only [hr, Option.some.injEq] at hs
      rcases hs with rfl | rfl
      · cases hv
      · exact (Option.some.inj hv).symm

theorem serve_closes (jdk : Jdk) (r : CmdTransactionRequest) (id : JLong) (k : ℕ)
    (o : Outcomes) : (serve jdk r id k o).trace.countP Action.isClose = 0 := by
  rw [List.countP_eq_zero]
  intro a ha
  rcases mem_serve_trace ha with ⟨ok, rfl⟩ | ⟨s, -, rows, raised, rfl⟩ <;> simp [Action.isClose]

namespace Observer

theorem onError_closes (jdk : Jdk) (obs : Observer) (o : Outcomes) :
    (obs.onError jdk o).trace.countP Action.isClose = 1 := by
  rw [(onError_spec jdk obs o).1]
  cases obs.answerId (failureAnswered jdk o) <;> rfl

theorem onCompleted_closes (jdk : Jdk) (obs : Observer) (o : Outcomes) :
    (obs.onCompleted jdk o).trace.countP Action.isClose =
      if completionCloses jdk o then 1 else 0 := by
  rw [(onCompleted_spec jdk obs o).1]
  cases obs.answerId (completionAnswered jdk o) <;> cases completionCloses jdk o <;> rfl

theorem onError_responses_unknown (jdk : Jdk) {obs : Observer} (h : obs.txnId = none)
    (o : Outcomes) : (obs.onError jdk o).trace.filterMap Action.response? = [] := by
  rw [onError_responses, answerId_unknown h]
  rfl

theorem onCompleted_responses_unknown (jdk : Jdk) {obs : Observer} (h : obs.txnId = none)
    (o : Outcomes) : (obs.onCompleted jdk o).trace.filterMap Action.response? = [] := by
  rw [onCompleted_responses, answerId_unknown h]
  rfl

/-- `onCompleted` does not answer without having closed. -/
theorem onCompleted_closes_of_response {jdk : Jdk} {obs : Observer} {o : Outcomes}
    (h : (obs.onCompleted jdk o).trace.filterMap Action.response? ≠ []) :
    1 ≤ (obs.onCompleted jdk o).trace.countP Action.isClose := by
  have hanswered : completionAnswered jdk o = true := by
    by_contra hnot
    rw [onCompleted_responses, answerId, if_neg hnot] at h
    exact h rfl
  exact Nat.le_of_eq
    ((onCompleted_closes jdk obs o).trans (if_pos (completionCloses_of_answered hanswered))).symm

/-- A message that makes the observer answer has gone through `onError`. -/
theorem onNext_closes_of_response {jdk : Jdk} {obs : Observer} {r : CmdTransactionRequest}
    {o : Outcomes} (h : (obs.onNext jdk r o).2.trace.filterMap Action.response? ≠ []) :
    1 ≤ (obs.onNext jdk r o).2.trace.countP Action.isClose := by
  cases hread : (obs.readTxnId o).result with
  | error e =>
      -- without an id there is no response
      exfalso
      have hnone : obs.txnId = none := by
        rcases obs with ⟨txnId, k, rs⟩
        rcases txnId with _ | id
        · rfl
        · rw [readTxnId_known rfl o] at hread
          cases hread
      apply h
      unfold onNext
      rw [hread]
      cases e with
      | sqlException => exact onError_responses_unknown jdk hnone o
      | _ => rfl
  | ok id =>
      rw [(onNext_spec jdk obs r o hread).2] at h ⊢
      cases hv : verdict jdk r o with
      | served => simp [hv, serve_responses] at h
      | escaped => simp [hv, serve_responses] at h
      | failed => simp [onError_closes]

theorem callback_closes_of_response {jdk : Jdk} {obs : Observer} {e : Event}
    (h : (obs.callback jdk e).2.trace.filterMap Action.response? ≠ []) :
    1 ≤ (obs.callback jdk e).2.trace.countP Action.isClose := by
  rcases e with ⟨cb, o⟩
  cases cb with
  | onNext r => exact onNext_closes_of_response h
  | onCompleted => exact onCompleted_closes_of_response h
  | onError => exact Nat.le_of_eq (onError_closes jdk obs o).symm

end Observer

/-- The callback closes the connection: every one does but a message that is served or
escapes, and an `onCompleted` whose commit escapes. -/
def closesEvent (jdk : Jdk) : Event → Bool
  | (.onNext r, o) => verdict jdk r o = .failed
  | (.onCompleted, o) => completionCloses jdk o
  | (.onError, _) => true

/-- The callback closes the connection and gets to its response. -/
def answersEvent (jdk : Jdk) : Event → Bool
  | (.onNext r, o) => verdict jdk r o = .failed && failureAnswered jdk o
  | (.onCompleted, o) => completionAnswered jdk o
  | (.onError, o) => failureAnswered jdk o

theorem closesEvent_of_answers {jdk : Jdk} {e : Event} (h : answersEvent jdk e = true) :
    closesEvent jdk e = true := by
  rcases e with ⟨cb, o⟩
  cases cb with
  | onNext r =>
      rw [answersEvent, Bool.and_eq_true] at h
      exact h.1
  | onCompleted => exact completionCloses_of_answered h
  | onError => rfl

theorem eventResponse_of_answers {jdk : Jdk} {e : Event} (h : answersEvent jdk e = true)
    (i : JInt) : ∃ m, eventResponse jdk i e = some m ∧ m.txnId = i := by
  rcases e with ⟨cb, o⟩
  cases cb with
  | onNext r =>
      rw [answersEvent, Bool.and_eq_true, decide_eq_true_eq] at h
      exact ⟨_, if_pos h, rfl⟩
  | onCompleted => exact ⟨_, if_pos h, rfl⟩
  | onError => exact ⟨_, if_pos h, rfl⟩

theorem eventResponse_of_not_answers {jdk : Jdk} {e : Event} (h : answersEvent jdk e = false)
    (i : JInt) : eventResponse jdk i e = none := by
  rcases e with ⟨cb, o⟩
  cases cb with
  | onNext r => exact if_neg fun ⟨hv, ho⟩ => by simp [answersEvent, hv, ho] at h
  | onCompleted => exact if_neg (Bool.eq_false_iff.mp h)
  | onError => exact if_neg (Bool.eq_false_iff.mp h)

/-- The first callback that closes the connection gets to its response. -/
def FirstCloseAnswers (jdk : Jdk) (es : List Event) : Prop :=
  ∃ pre e post, es = pre ++ e :: post ∧ (∀ d ∈ pre, closesEvent jdk d = false) ∧
    answersEvent jdk e = true

theorem not_firstCloseAnswers_nil (jdk : Jdk) : ¬ FirstCloseAnswers jdk [] := by
  rintro ⟨pre, e, post, h, -⟩
  simp at h

theorem firstCloseAnswers_cons {jdk : Jdk} {e : Event} {es : List Event} :
    FirstCloseAnswers jdk (e :: es) ↔
      answersEvent jdk e = true ∨ closesEvent jdk e = false ∧ FirstCloseAnswers jdk es := by
  unfold FirstCloseAnswers
  rw [Foundation.Journal.exists_split_cons fun pre e _ => (∀ d ∈ pre, closesEvent jdk d = false) ∧
    answersEvent jdk e = true]
  constructor
  · rintro (⟨-, he⟩ | ⟨pre, x, post, hes, hpre, hx⟩)
    · exact Or.inl he
    · obtain ⟨he, hpre⟩ := List.forall_mem_cons.mp hpre
      exact Or.inr ⟨he, pre, x, post, hes, hpre, hx⟩
  · rintro (he | ⟨he, pre, x, post, hes, hpre, hx⟩)
    · exact Or.inl ⟨by simp, he⟩
    · exact Or.inr ⟨pre, x, post, hes, List.forall_mem_cons.mpr ⟨he, hpre⟩, hx⟩

section Known
variable (jdk : Jdk) (obs : Observer) {id : JLong} (h : obs.txnId = some id)
include h

theorem Observer.callback_closes (e : Event) :
    (obs.callback jdk e).2.trace.countP Action.isClose =
      if closesEvent jdk e then 1 else 0 := by
  rcases e with ⟨cb, o⟩
  cases cb with
  | onCompleted => exact onCompleted_closes jdk obs o
  | onError => exact onError_closes jdk obs o
  | onNext r =>
      rw [Observer.callback, (onNext_spec jdk obs r o (readTxnId_known h o)).2]
      cases hv : verdict jdk r o with
      | served => simp [serve_closes, closesEvent, hv]
      | escaped => simp [serve_closes, closesEvent, hv]
      | failed => simp [serve_closes, onError_closes, closesEvent, hv]

/-- The observer stamps its own id on every row. -/
theorem Observer.callback_stamps {e : Event} {s : Stmt} {rows : ℕ} {raised : Bool} {v : JLong}
    (hmem : .execute s rows raised ∈ (obs.callback jdk e).2.trace)
    (hv : s.stampedId? = some v) : v = id := by
  have hend := fun (obs : Observer) (o : Outcomes) =>
    execute_notMem_end jdk obs o s rows raised
  have hserve : ∀ (r : CmdTransactionRequest) (k : ℕ) (o : Outcomes),
      .execute s rows raised ∈ (serve jdk r id k o).trace → v = id := by
    intro r k o hmem
    rcases mem_serve_trace hmem with ⟨ok, heq⟩ | ⟨t, ht, n, b, heq⟩
    · cases heq
    · cases heq
      exact stampedId_of_mem_messageStmts ht hv
  rcases e with ⟨cb, o⟩
  cases cb with
  | onCompleted => exact absurd hmem (hend obs o).2
  | onError => exact absurd hmem (hend obs o).1
  | onNext r =>
      rw [Observer.callback, (onNext_spec jdk obs r o (readTxnId_known h o)).2] at hmem
      cases hverdict : verdict jdk r o with
      | served =>
          rw [hverdict] at hmem
          exact hserve r _ o hmem
      | escaped =>
          rw [hverdict] at hmem
          exact hserve r _ o hmem
      | failed =>
          rw [hverdict] at hmem
          rcases List.mem_append.mp hmem with hmem | hmem
          · exact hserve r _ o hmem
          · exact absurd hmem (hend _ o).1

end Known

/-! ## Runs -/

namespace Stream

theorem closes_deliver (jdk : Jdk) (st : Stream) (e : Event) :
    (st.deliver jdk e).closes =
      st.closes + (st.observer.callback jdk e).2.trace.countP Action.isClose := by
  rw [closes, trace_deliver, List.countP_append]
  rfl

theorem responses_deliver (jdk : Jdk) (st : Stream) (e : Event) :
    (st.deliver jdk e).responses =
      st.responses ++ (st.observer.callback jdk e).2.trace.filterMap Action.response? := by
  rw [responses, trace_deliver, List.filterMap_append]
  rfl

theorem closes_run_ge (jdk : Jdk) (es : List Event) (st : Stream) :
    st.closes ≤ (run jdk st es).closes := by
  obtain ⟨more, hmore⟩ := trace_run jdk es st
  rw [closes, closes, hmore, List.countP_append]
  exact Nat.le_add_right _ _

theorem delivered_singleton (jdk : Jdk) (st : Stream) (e : Event) :
    delivered jdk st [e] = [e] := by
  rw [delivered]
  split <;> rfl

theorem events_nil (fin : Terminal × Outcomes) :
    events [] (some fin) = [(fin.1.callback, fin.2)] := rfl

theorem events_cons (q : Message) (reqs : List Message) (fin : Option (Terminal × Outcomes)) :
    events (q :: reqs) fin = (.onNext q.1, q.2) :: events reqs fin := rfl

/-- Whatever the observer knows, no response is given without a close beside it. -/
theorem responses_run_of_closes (jdk : Jdk) (es : List Event) (st : Stream)
    (h : (run jdk st es).closes = st.closes) : (run jdk st es).responses = st.responses := by
  induction es generalizing st with
  | nil => rfl
  | cons e es ih =>
      rw [run_cons] at h ⊢
      have hrest := closes_run_ge jdk es (st.deliver jdk e)
      have hstep := closes_deliver jdk st e
      have hsilent : (st.observer.callback jdk e).2.trace.filterMap Action.response? = [] := by
        by_contra hresponse
        have hclose := Observer.callback_closes_of_response hresponse
        omega
      rw [ih (st.deliver jdk e) (by omega), responses_deliver, hsilent, List.append_nil]

section Known
variable {jdk : Jdk} {id : JLong}

theorem ends_known {st : Stream} {i : JInt} (h : st.observer.txnId = some id)
    (hi : intOf id = some i) (e : Event) : st.ends jdk e = answersEvent jdk e := by
  rw [ends, Observer.callback_responses jdk st.observer h, hi, Option.bind_some]
  cases hans : answersEvent jdk e with
  | true =>
      obtain ⟨m, hm, -⟩ := eventResponse_of_answers hans i
      rw [hm]
      rfl
  | false =>
      rw [eventResponse_of_not_answers hans]
      rfl

/-- A callback that answers closes beside it. -/
theorem deliver_answers {st : Stream} {i : JInt} (h : st.observer.txnId = some id)
    (hi : intOf id = some i) {e : Event} (hans : answersEvent jdk e = true) :
    (st.deliver jdk e).closes = st.closes + 1 ∧
      ∃ m, (st.deliver jdk e).responses = st.responses ++ [m] ∧ m.txnId = i := by
  obtain ⟨m, hm, hid⟩ := eventResponse_of_answers hans i
  refine ⟨?_, m, ?_, hid⟩
  · rw [closes_deliver, Observer.callback_closes jdk st.observer h,
      if_pos (closesEvent_of_answers hans)]
  · rw [responses_deliver, Observer.callback_responses jdk st.observer h, hi, Option.bind_some,
      hm]
    rfl

theorem responses_deliver_silent {st : Stream} (h : st.observer.txnId = some id) {e : Event}
    (hans : answersEvent jdk e = false) : (st.deliver jdk e).responses = st.responses := by
  rw [responses_deliver, Observer.callback_responses jdk st.observer h]
  cases intOf id with
  | none => exact List.append_nil _
  | some i =>
      rw [Option.bind_some, eventResponse_of_not_answers hans]
      exact List.append_nil _

theorem closes_deliver_known {st : Stream} (h : st.observer.txnId = some id) (e : Event) :
    (st.deliver jdk e).closes = st.closes + if closesEvent jdk e then 1 else 0 := by
  rw [closes_deliver, Observer.callback_closes jdk st.observer h]

/-- An observer that knows an id that fits closes once and answers once if the first
callback that closes answers. -/
theorem run_delivered_answers {i : JInt} (hi : intOf id = some i) (es : List Event)
    (st : Stream) (h : st.observer.txnId = some id) (hes : FirstCloseAnswers jdk es) :
    (run jdk st (delivered jdk st es)).closes = st.closes + 1 ∧
      ∃ m, (run jdk st (delivered jdk st es)).responses = st.responses ++ [m] ∧
        m.txnId = i := by
  induction es generalizing st with
  | nil => exact absurd hes (not_firstCloseAnswers_nil jdk)
  | cons e es ih =>
      rw [delivered, ends_known h hi, run_cons]
      cases hans : answersEvent jdk e with
      | true => exact deliver_answers h hi hans
      | false =>
          rcases firstCloseAnswers_cons.mp hes with hfirst | ⟨hopen, hrest⟩
          · rw [hans] at hfirst
            cases hfirst
          · have hall := ih (st.deliver jdk e) (deliver_knows jdk e h) hrest
            rw [responses_deliver_silent h hans, closes_deliver_known h, hopen] at hall
            exact hall

/-- Only then: a first close without an answer leaves none, or is not the only close. -/
theorem firstCloseAnswers_of_run {i : JInt} (hi : intOf id = some i) (es : List Event)
    (st : Stream) (h : st.observer.txnId = some id)
    (hcloses : (run jdk st (delivered jdk st es)).closes = st.closes + 1)
    (hanswers : (run jdk st (delivered jdk st es)).responses ≠ st.responses) :
    FirstCloseAnswers jdk es := by
  induction es generalizing st with
  | nil => exact absurd rfl hanswers
  | cons e es ih =>
      rw [delivered, ends_known h hi, run_cons] at hcloses hanswers
      rw [firstCloseAnswers_cons]
      cases hans : answersEvent jdk e with
      | true => exact .inl rfl
      | false =>
          refine .inr ?_
          simp only [hans, Bool.false_eq_true, if_false] at hcloses hanswers
          have hstep : (st.deliver jdk e).closes =
              st.closes + if closesEvent jdk e then 1 else 0 := closes_deliver_known h e
          rw [← responses_deliver_silent h hans] at hanswers
          cases hopen : closesEvent jdk e with
          | true =>
              rw [hopen, if_pos rfl] at hstep
              rw [← hstep] at hcloses
              exact absurd (responses_run_of_closes jdk _ _ hcloses) hanswers
          | false =>
              rw [hopen] at hstep
              have hsame : (st.deliver jdk e).closes = st.closes := hstep
              rw [← hsame] at hcloses
              exact ⟨rfl, ih _ (deliver_knows jdk e h) hcloses hanswers⟩

/-- Every row of a run carries the id of the observer. -/
theorem run_stamps (es : List Event) {st : Stream} (h : st.observer.txnId = some id)
    {s : Stmt} {rows : ℕ} {raised : Bool} {v : JLong}
    (hmem : .execute s rows raised ∈ (run jdk st es).trace) (hv : s.stampedId? = some v) :
    .execute s rows raised ∈ st.trace ∨ v = id := by
  induction es generalizing st with
  | nil => exact .inl hmem
  | cons e es ih =>
      rw [run_cons] at hmem
      rcases ih (deliver_knows jdk e h) hmem with hbefore | heq
      · rw [trace_deliver] at hbefore
        rcases List.mem_append.mp hbefore with hbefore | hnow
        · exact .inl hbefore
        · exact .inr (Observer.callback_stamps jdk st.observer h hnow hv)
      · exact .inr heq

/-- An id that does not fit an `int` never gets into a response. -/
theorem responses_run_wide (hwide : intOf id = none) (es : List Event) {st : Stream}
    (h : st.observer.txnId = some id) : (run jdk st es).responses = st.responses := by
  induction es generalizing st with
  | nil => rfl
  | cons e es ih =>
      rw [run_cons, ih (deliver_knows jdk e h), responses_deliver,
        Observer.callback_responses jdk st.observer h, hwide]
      exact List.append_nil _

end Known

/-! ## Streams that never know their id -/

/-- A null result set leaves the observer as it is, and without a response. -/
theorem responses_run_null (jdk : Jdk) (es : List Event) {st : Stream}
    (h : st.observer.txnId = none) (hnull : st.observer.resultSet = none) :
    (run jdk st es).responses = st.responses := by
  have hread : ∀ o, (st.observer.readTxnId o).result = .error .nullPointerException := by
    intro o
    unfold Observer.readTxnId
    rw [h, hnull]
    rfl
  induction es generalizing st with
  | nil => rfl
  | cons e es ih =>
      have hobs : (st.deliver jdk e).observer = st.observer := by
        rcases e with ⟨cb, o⟩
        cases cb with
        | onNext r =>
            show (st.observer.onNext jdk r o).1 = st.observer
            unfold Observer.onNext
            rw [hread]
        | onCompleted => rfl
        | onError => rfl
      have hnone : (st.observer.callback jdk e).2.trace.filterMap Action.response? = [] := by
        rcases e with ⟨cb, o⟩
        cases cb with
        | onNext r =>
            show (st.observer.onNext jdk r o).2.trace.filterMap Action.response? = []
            unfold Observer.onNext
            rw [hread]
            rfl
        | onCompleted => exact Observer.onCompleted_responses_unknown jdk h o
        | onError => exact Observer.onError_responses_unknown jdk h o
      rw [run_cons, ih (by rw [hobs]; exact h) (by rw [hobs]; exact hnull)
        (by rw [hobs]; exact hread), responses_deliver, hnone, List.append_nil]

/-- The first message finds the transaction id, and it fits the `int` of a response. -/
def ReadsId (resultSet : Option JLong) (reqs : List Message) : Prop :=
  ∃ id, resultSet = some id ∧ (intOf id).isSome = true ∧
    ∃ q rest, reqs = q :: rest ∧ q.2.getLong = true

theorem delivered_start (jdk : Jdk) (id : JLong) {q : Message} (hget : q.2.getLong = true)
    (es : List Event) :
    delivered jdk (start (some id)) ((.onNext q.1, q.2) :: es) =
      delivered jdk (known id) ((.onNext q.1, q.2) :: es) := by
  rw [delivered, delivered, ends, ends, callback_start jdk id q.1 hget,
    deliver_start jdk id q.1 hget]

theorem toEnd_known (jdk : Jdk) (id : JLong) {q : Message} (hget : q.2.getLong = true)
    (reqs : List Message) (fin : Terminal × Outcomes) :
    toEnd jdk (some id) (q :: reqs) fin =
      run jdk (known id) (delivered jdk (known id) (events (q :: reqs) (some fin))) := by
  rw [toEnd, events_cons, delivered_start jdk id hget, delivered, run_cons, run_cons,
    deliver_start jdk id q.1 hget]

/-- With no message the end is the first callback, and finds no id. -/
theorem responses_toEnd_nil (jdk : Jdk) (resultSet : Option JLong) (fin : Terminal × Outcomes) :
    (toEnd jdk resultSet [] fin).responses = [] := by
  rw [toEnd, events_nil, delivered_singleton, run_cons, run_nil, responses_deliver]
  rcases fin with ⟨t, o⟩
  cases t with
  | halfClose => exact Observer.onCompleted_responses_unknown jdk rfl o
  | cancel => exact Observer.onError_responses_unknown jdk rfl o

/-- A first message that cannot read the id closes without an answer, and an answer given
later comes with a second close. -/
theorem not_once_unread (jdk : Jdk) (id : JLong) {q : Message} (hget : q.2.getLong = false)
    (reqs : List Message) (fin : Terminal × Outcomes) :
    ¬ ClosesAndAnswersOnce (toEnd jdk (some id) (q :: reqs) fin) := by
  have hcallback : (start (some id)).observer.callback jdk (.onNext q.1, q.2) =
      ((start (some id)).observer, (start (some id)).observer.onError jdk q.2) := by
    show (start (some id)).observer.onNext jdk q.1 q.2 = _
    unfold Observer.onNext Observer.readTxnId
    simp only [start, hget]
    rfl
  have hsilent := Observer.onError_responses_unknown jdk
    (show (start (some id)).observer.txnId = none from rfl) q.2
  have hends : (start (some id)).ends jdk (.onNext q.1, q.2) = false := by
    rw [ends, hcallback, hsilent]
    rfl
  have hone : ((start (some id)).deliver jdk (.onNext q.1, q.2)).closes = 1 := by
    rw [closes_deliver, hcallback, Observer.onError_closes]
    rfl
  have hnone : ((start (some id)).deliver jdk (.onNext q.1, q.2)).responses = [] := by
    rw [responses_deliver, hcallback, hsilent]
    rfl
  rintro ⟨hcloses, m, hm, -⟩
  rw [toEnd, events_cons, delivered, hends, run_cons] at hcloses hm
  rw [← hone] at hcloses
  have hrest := (responses_run_of_closes jdk _ _ hcloses).trans hnone
  exact List.cons_ne_nil _ _ (hm.symm.trans hrest)

theorem closesAndAnswersOnce_of_readsId (jdk : Jdk) {resultSet : Option JLong}
    {reqs : List Message} (fin : Terminal × Outcomes) (h : ReadsId resultSet reqs)
    (hfirst : FirstCloseAnswers jdk (events reqs (some fin))) :
    ClosesAndAnswersOnce (toEnd jdk resultSet reqs fin) := by
  rcases h with ⟨id, rfl, hfit, q, rest, rfl, hget⟩
  obtain ⟨i, hi⟩ := Option.isSome_iff_exists.mp hfit
  rw [toEnd_known jdk id hget]
  obtain ⟨hcloses, m, hm, hid⟩ := run_delivered_answers hi _ (known id) rfl hfirst
  refine ⟨hcloses, m, hm, ?_⟩
  intro s rows raised hmem v hv
  rcases run_stamps _ (show (known id).observer.txnId = some id from rfl) hmem hv with hold | rfl
  · cases hold
  · rw [hid, signExtend_of_intOf hi]

theorem closesAndAnswersOnce_iff (jdk : Jdk) (resultSet : Option JLong) (reqs : List Message)
    (fin : Terminal × Outcomes) :
    ClosesAndAnswersOnce (toEnd jdk resultSet reqs fin) ↔
      ReadsId resultSet reqs ∧ FirstCloseAnswers jdk (events reqs (some fin)) := by
  refine ⟨?_, fun h => closesAndAnswersOnce_of_readsId jdk fin h.1 h.2⟩
  intro honce
  have ⟨hcloses, m, hm, _⟩ := honce
  rcases resultSet with _ | id
  · rw [toEnd, responses_run_null jdk _ rfl rfl] at hm
    cases hm
  rcases reqs with _ | ⟨q, reqs⟩
  · rw [responses_toEnd_nil] at hm
    cases hm
  cases hget : q.2.getLong with
  | false => exact absurd honce (not_once_unread jdk id hget reqs fin)
  | true =>
      rw [toEnd_known jdk id hget] at hcloses hm
      cases hfit : intOf id with
      | none =>
          rw [responses_run_wide hfit _ rfl] at hm
          cases hm
      | some i =>
          refine ⟨⟨id, rfl, by rw [hfit]; rfl, q, reqs, rfl, hget⟩, ?_⟩
          refine firstCloseAnswers_of_run hfit _ (known id) rfl hcloses ?_
          rw [hm]
          exact List.cons_ne_nil _ _

/-! ## What leaves the server -/

theorem deliver_ends_closed {jdk : Jdk} {st : Stream} {e : Event} (h : st.ends jdk e = true) :
    (st.deliver jdk e).callOpen = false := by
  have hsome : ((st.observer.callback jdk e).2.trace.filterMap Action.response?).isEmpty =
      false := by simpa [ends] using h
  simp only [deliver, hsome, Bool.and_false, Bool.false_and]

/-- Nothing that gRPC keeps back could have been answered. -/
theorem sent_delivered (jdk : Jdk) (es : List Event) (st : Stream) :
    (run jdk st (delivered jdk st es)).sent = (run jdk st es).sent := by
  induction es generalizing st with
  | nil => rfl
  | cons e es ih =>
      rw [delivered, run_cons, run_cons]
      cases hends : st.ends jdk e with
      | true => exact (sent_run_closed jdk es _ (deliver_ends_closed hends)).symm
      | false => exact ih (st.deliver jdk e)

/-- One response leaves the server exactly when a message fails and is answered before
anything else ends the call, or all are served and the half-close is answered. -/
theorem sent_toEnd_iff (jdk : Jdk) (resultSet : Option JLong) (reqs : List Message)
    (fin : Terminal × Outcomes) :
    (∃ m, (toEnd jdk resultSet reqs fin).sent = [m]) ↔
      FirstFails jdk resultSet (events reqs (some fin)) ∨
        AllServed jdk resultSet reqs ∧ fin.1 = .halfClose ∧
          completionAnswered jdk fin.2 = true := by
  rw [toEnd, sent_delivered]
  have hhalf : (∃ o, some fin = some (Terminal.halfClose, o) ∧
      completionAnswered jdk o = true) ↔
        fin.1 = .halfClose ∧ completionAnswered jdk fin.2 = true := by
    rcases fin with ⟨t, o⟩
    constructor
    · rintro ⟨o', h, hanswered⟩
      cases h
      exact ⟨rfl, hanswered⟩
    · rintro ⟨rfl, hanswered⟩
      exact ⟨o, rfl, hanswered⟩
  rw [← hhalf, ← success_sent_iff, ← failure_sent_iff]
  obtain ⟨answer, hsent⟩ := sent_start jdk resultSet (events reqs (some fin))
  rw [hsent]
  constructor
  · rintro ⟨m, hm⟩
    rw [hm]
    rcases m with ⟨ack, txnId⟩ | ⟨ack, txnId⟩
    · exact .inr ⟨ack, txnId, List.mem_singleton_self _⟩
    · exact .inl ⟨ack, txnId, List.mem_singleton_self _⟩
  · intro h
    rcases answer with _ | m
    · rcases h with ⟨ack, txnId, hmem⟩ | ⟨ack, txnId, hmem⟩ <;> cases hmem
    · exact ⟨m, rfl⟩

theorem not_closes_of_served {jdk : Jdk} {e : Event} (h : servedEvent jdk e = true) :
    closesEvent jdk e = false := by
  rcases e with ⟨cb, o⟩
  cases cb with
  | onNext r =>
      have hv : verdict jdk r o = .served := of_decide_eq_true h
      simp [closesEvent, hv]
  | onCompleted => cases h
  | onError => cases h

theorem readsId_of_opens {resultSet : Option JLong} {reqs : List Message}
    {fin : Option (Terminal × Outcomes)} {id : JLong} (h : Opens resultSet (events reqs fin) id)
    (hfit : (intOf id).isSome = true) : ReadsId resultSet reqs := by
  obtain ⟨hrs, q, rest, hreqs, hget⟩ := opens_events h
  exact ⟨id, hrs, hfit, q, rest, hreqs, hget⟩

theorem firstCloseAnswers_of_fails {jdk : Jdk} {resultSet : Option JLong} {es : List Event}
    (h : FirstFails jdk resultSet es) : FirstCloseAnswers jdk es := by
  rcases h with ⟨id, -, -, pre, r, o, post, hes, hpre, hv, hanswered⟩
  refine ⟨pre, _, post, hes, fun d hd => not_closes_of_served (hpre d hd), ?_⟩
  simp [answersEvent, hv, hanswered]

theorem firstCloseAnswers_of_served {jdk : Jdk} {reqs : List Message} {fin : Terminal × Outcomes}
    (h : ∀ q ∈ reqs, verdict jdk q.1 q.2 = .served) (hhalf : fin.1 = .halfClose)
    (hanswered : completionAnswered jdk fin.2 = true) :
    FirstCloseAnswers jdk (events reqs (some fin)) := by
  rcases fin with ⟨t, o⟩
  cases hhalf
  refine ⟨reqs.map (fun q => (.onNext q.1, q.2)), (.onCompleted, o), [], rfl, ?_, hanswered⟩
  intro d hd
  obtain ⟨q, hq, rfl⟩ := List.mem_map.mp hd
  exact not_closes_of_served (decide_eq_true (h q hq))

/-- **The observer closes once and answers once exactly when** its first message finds an
id that fits, and the first callback that closes gets past the connection; the answer
leaves the server exactly when, besides, the first message that is not served fails with a
`SQLException`, or all are served and the client half-closes. -/
theorem closes_and_answers_iff (jdk : Jdk) (resultSet : Option JLong) (reqs : List Message)
    (fin : Terminal × Outcomes) :
    (ClosesAndAnswersOnce (toEnd jdk resultSet reqs fin) ↔
        ReadsId resultSet reqs ∧ FirstCloseAnswers jdk (events reqs (some fin))) ∧
      (ClosesAndAnswersOnce (toEnd jdk resultSet reqs fin) ∧
          (∃ m, (toEnd jdk resultSet reqs fin).sent = [m]) ↔
        FirstFails jdk resultSet (events reqs (some fin)) ∨
          AllServed jdk resultSet reqs ∧ fin.1 = .halfClose ∧
            completionAnswered jdk fin.2 = true) := by
  refine ⟨closesAndAnswersOnce_iff jdk resultSet reqs fin, ?_⟩
  rw [closesAndAnswersOnce_iff, sent_toEnd_iff]
  constructor
  · exact And.right
  · intro h
    refine ⟨?_, h⟩
    rcases h with hfails | ⟨⟨id, hrs, hfit, hhead, hserved⟩, hhalf, hanswered⟩
    · have ⟨id, hopens, hfit, _⟩ := hfails
      exact ⟨readsId_of_opens hopens hfit, firstCloseAnswers_of_fails hfails⟩
    · exact ⟨⟨id, hrs, hfit, hhead⟩, firstCloseAnswers_of_served hserved hhalf hanswered⟩

/-- Off a proxy nothing keeps the first close from its answer. -/
theorem firstCloseAnswers_unproxied {jdk : Jdk} (h : jdk.proxied = false)
    (reqs : List Message) (fin : Terminal × Outcomes) :
    FirstCloseAnswers jdk (events reqs (some fin)) := by
  have hanswers : ∀ e, answersEvent jdk e = closesEvent jdk e := by
    rintro ⟨cb, o⟩
    cases cb <;>
      simp [answersEvent, closesEvent, failureAnswered, completionAnswered, completionCloses, h]
  induction reqs with
  | nil =>
      rw [events_nil, firstCloseAnswers_cons]
      rcases fin with ⟨t, o⟩
      cases t with
      | halfClose => exact .inl (by simp [answersEvent, Terminal.callback, completionAnswered, h])
      | cancel => exact .inl (by simp [answersEvent, Terminal.callback, failureAnswered, h])
  | cons q reqs ih =>
      rw [events_cons, firstCloseAnswers_cons, hanswers]
      cases closesEvent jdk (.onNext q.1, q.2) with
      | true => exact .inl rfl
      | false => exact .inr ⟨rfl, ih⟩

/-- Off a proxy the id alone decides. -/
theorem closesAndAnswersOnce_unproxied {jdk : Jdk} (h : jdk.proxied = false)
    (resultSet : Option JLong) (reqs : List Message) (fin : Terminal × Outcomes) :
    ClosesAndAnswersOnce (toEnd jdk resultSet reqs fin) ↔ ReadsId resultSet reqs := by
  rw [closesAndAnswersOnce_iff, and_iff_left (firstCloseAnswers_unproxied h reqs fin)]

/-- On a proxy a final commit that raises leaves the connection open and the client without
an answer. -/
example :
    (toEnd { Jdk.ascii with proxied := true } (some 7) [(⟨5, .trailer⟩, {})]
      (.halfClose, { commit := false })).trace = [.commit true, .commit false] := rfl

/-- A client that opens a stream and half-closes at once: the observer commits, closes,
and fails on the empty id. -/
theorem empty_stream_unanswered :
    (toEnd Jdk.ascii (some 7) [] (.halfClose, {})).trace = [.commit true, .close true] ∧
      (toEnd Jdk.ascii (some 7) [] (.halfClose, {})).sent = [] ∧
      ¬ ClosesAndAnswersOnce (toEnd Jdk.ascii (some 7) [] (.halfClose, {})) := by
  refine ⟨rfl, rfl, ?_⟩
  rintro ⟨-, m, hm, -⟩
  cases hm

end Stream

end Transaction

end AuroraSizing

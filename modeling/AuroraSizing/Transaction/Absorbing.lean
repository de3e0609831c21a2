import AuroraSizing.Foundation.System
import AuroraSizing.Transaction.Runs

/-!
# After the end of a stream

The observer keeps no flag for having failed or completed, so each callback gRPC
still delivers runs as the first one did, on a connection that is back in its pool.
`absorbing_iff` says for every run which late callbacks leave the connection and the
client alone: only messages that raise an unchecked exception before anything is
executed, `SQLException` being the only one `onNext` catches. On a proxy a
`prepareStatement` that fails is such a message's.
-/

namespace AuroraSizing.Transaction

open Foundation.System

/-! ## Messages that escape -/

/-- `Timestamp.valueOf` rejects the `time_update` that the message's operation binds. -/
def BadTime (jdk : Jdk) (r : CmdTransactionRequest) : Prop :=
  (transType r = .insert ∧ jdk.timestampValueOf r.getInsert.metadata.timeUpdate = none) ∨
    (transType r = .update ∧ jdk.timestampValueOf r.getUpdate.newMetadata.timeUpdate = none)

instance (jdk : Jdk) (r : CmdTransactionRequest) : Decidable (BadTime jdk r) :=
  inferInstanceAs (Decidable (_ ∨ _))

/-- The first statement of the message is not prepared. -/
def Unprepared (r : CmdTransactionRequest) (o : Outcomes) : Prop :=
  match transType r with
  | .insert | .update | .rename | .delete => o.op.prepared = false
  | .header | .unrecognized => o.log.prepared = false
  | .trailer => False

theorem raisedVerdict_escaped_iff {jdk : Jdk} :
    raisedVerdict jdk = .escaped ↔ jdk.proxied = true := by
  unfold raisedVerdict
  cases jdk.proxied <;> simp

/-- A message escapes with nothing executed exactly when its `time_update` is rejected
after it has been prepared, or a proxy fails to prepare it. -/
theorem escapes_untouched_iff (jdk : Jdk) (r : CmdTransactionRequest) (id : JLong) (k : ℕ)
    (o : Outcomes) :
    verdict jdk r o = .escaped ∧ (serve jdk r id k o).trace = [] ↔
      BadTime jdk r ∧ o.op.prepared = true ∨ jdk.proxied = true ∧ Unprepared r o := by
  rw [serve_trace]
  cases hr : transType r with
  | trailer => simp [BadTime, Unprepared, hr]
  | header =>
      cases hp : o.log.prepared <;>
        simp [verdict, opVerdict, logVerdict, stmtVerdict, raisedVerdict_escaped_iff, BadTime,
          Unprepared, opStmt?, logStmt?, stmtTrace, hr, hp]
  | unrecognized =>
      cases hp : o.log.prepared <;>
        simp [verdict, opVerdict, logVerdict, stmtVerdict, raisedVerdict_escaped_iff, BadTime,
          Unprepared, opStmt?, logStmt?, stmtTrace, hr, hp]
  | rename =>
      cases hp : o.op.prepared <;> cases hproxied : jdk.proxied <;>
        simp [verdict, opVerdict, stmtVerdict, raisedVerdict, BadTime, Unprepared, opStmt?,
          stmtTrace, hr, hp, hproxied]
  | delete =>
      cases hp : o.op.prepared <;> cases hproxied : jdk.proxied <;>
        simp [verdict, opVerdict, stmtVerdict, raisedVerdict, BadTime, Unprepared, opStmt?,
          stmtTrace, hr, hp, hproxied]
  | insert =>
      cases ht : jdk.timestampValueOf r.getInsert.metadata.timeUpdate <;>
        cases hp : o.op.prepared <;> cases hproxied : jdk.proxied <;>
        simp [verdict, opVerdict, timedVerdict, stmtVerdict, raisedVerdict, BadTime,
          Unprepared, opStmt?, stmtTrace, hr, ht, hp, hproxied]
  | update =>
      cases ht : jdk.timestampValueOf r.getUpdate.newMetadata.timeUpdate <;>
        cases hp : o.op.prepared <;> cases hproxied : jdk.proxied <;>
        simp [verdict, opVerdict, timedVerdict, stmtVerdict, raisedVerdict, BadTime,
          Unprepared, opStmt?, stmtTrace, hr, ht, hp, hproxied]

/-- A served message has written its log row, or committed. -/
theorem serve_trace_ne_nil {jdk : Jdk} {r : CmdTransactionRequest} {o : Outcomes}
    (h : verdict jdk r o = .served) (id : JLong) (k : ℕ) : (serve jdk r id k o).trace ≠ [] := by
  rw [serve_trace_served h]
  by_cases hr : transType r = .trailer
  · simp [hr]
  · have hlog : logStmt? r id k o.now ≠ none := by
      unfold logStmt?
      cases hr' : transType r with
      | trailer => exact absurd hr' hr
      | _ => simp
    simp [hr, messageStmts, hlog]

/-! ## One callback -/

/-- The callback is where the observer ends: it is `onCompleted` or `onError`, or a
message whose `SQLException` goes to `onError`. -/
def EndsObserver (jdk : Jdk) (obs : Observer) : Event → Prop
  | (.onNext r, o) =>
      match (obs.readTxnId o).result with
      | .error e => e = .sqlException
      | .ok id => (serve jdk r id obs.transpartIndex o).result = .error .sqlException
  | (.onCompleted, _) | (.onError, _) => True

/-- A message that raises something other than a `SQLException` with nothing executed:
there is no result set to read the transaction id from; or the id is there and the
operation has been prepared, but its `time_update` is not a timestamp; or the id is there
and a proxy fails to prepare the first statement. -/
def Harmless (jdk : Jdk) (obs : Observer) : Event → Prop
  | (.onNext r, o) =>
      (obs.txnId = none ∧ obs.resultSet = none) ∨
        ((obs.txnId ≠ none ∨ o.getLong = true) ∧
          (BadTime jdk r ∧ o.op.prepared = true ∨ jdk.proxied = true ∧ Unprepared r o))
  | (.onCompleted, _) | (.onError, _) => False

theorem Observer.onError_trace_ne_nil (jdk : Jdk) (obs : Observer) (o : Outcomes) :
    (obs.onError jdk o).trace ≠ [] := by
  rw [(onError_spec jdk obs o).1]
  exact List.cons_ne_nil _ _

theorem Observer.onCompleted_trace_ne_nil (jdk : Jdk) (obs : Observer) (o : Outcomes) :
    (obs.onCompleted jdk o).trace ≠ [] := by
  rw [(onCompleted_spec jdk obs o).1]
  exact List.cons_ne_nil _ _

/-- Once the id can be read, a message leaves no call exactly when it escapes untouched. -/
theorem Observer.onNext_trace_eq_nil_iff {jdk : Jdk} {obs : Observer} {r : CmdTransactionRequest}
    {o : Outcomes} {id : JLong} (h : (obs.readTxnId o).result = .ok id) :
    (obs.onNext jdk r o).2.trace = [] ↔
      BadTime jdk r ∧ o.op.prepared = true ∨ jdk.proxied = true ∧ Unprepared r o := by
  rw [(onNext_spec jdk obs r o h).2, ← escapes_untouched_iff jdk r id obs.transpartIndex o]
  cases hv : verdict jdk r o with
  | served => simp [serve_trace_ne_nil hv]
  | failed => simp [onError_trace_ne_nil]
  | escaped => simp

/-- A callback makes no call exactly when it is harmless. -/
theorem Observer.callback_trace_eq_nil_iff (jdk : Jdk) (obs : Observer) (e : Event) :
    (obs.callback jdk e).2.trace = [] ↔ Harmless jdk obs e := by
  rcases e with ⟨cb, o⟩
  cases cb with
  | onCompleted => simp [callback, Harmless, onCompleted_trace_ne_nil]
  | onError => simp [callback, Harmless, onError_trace_ne_nil]
  | onNext r =>
      rcases obs with ⟨txnId, k, rs⟩
      rcases txnId with _ | id
      · rcases rs with _ | id
        -- the null result set: a NullPointerException
        · exact ⟨fun _ => .inl ⟨rfl, rfl⟩, fun _ => rfl⟩
        · cases hget : o.getLong with
          | true =>
              have hread : (readTxnId ⟨none, k, some id⟩ o).result = .ok id := by
                simp [readTxnId, hget]
              rw [callback, onNext_trace_eq_nil_iff hread]
              simp [Harmless, hget]
          | false =>
              have hread : (readTxnId ⟨none, k, some id⟩ o).result = .error .sqlException := by
                simp [readTxnId, hget]
              have htrace : (onNext jdk ⟨none, k, some id⟩ r o).2.trace =
                  (onError jdk ⟨none, k, some id⟩ o).trace := by
                unfold onNext
                rw [hread]
                rfl
              rw [callback, htrace]
              simp [Harmless, hget, onError_trace_ne_nil]
      · rw [callback, onNext_trace_eq_nil_iff (readTxnId_known rfl o)]
        simp [Harmless]

/-! ## Runs -/

namespace Stream

theorem trace_deliver (jdk : Jdk) (st : Stream) (e : Event) :
    (st.deliver jdk e).trace = st.trace ++ (st.observer.callback jdk e).2.trace := rfl

/-- The calls of a run only ever get more. -/
theorem trace_run (jdk : Jdk) (es : List Event) (st : Stream) :
    ∃ more, (run jdk st es).trace = st.trace ++ more := by
  induction es generalizing st with
  | nil => exact ⟨[], (List.append_nil _).symm⟩
  | cons e es ih =>
      obtain ⟨more, hmore⟩ := ih (st.deliver jdk e)
      exact ⟨_, by rw [run_cons, hmore, trace_deliver, List.append_assoc]⟩

/-- Every callback is harmless to the observer it meets. -/
abbrev AllHarmless (jdk : Jdk) : Stream → List Event → Prop :=
  Along (fun st e => some (st.deliver jdk e)) (fun st e => Harmless jdk st.observer e)

/-- The run lemma: callbacks that add no call are harmless, each of them. -/
theorem trace_run_eq_iff (jdk : Jdk) (es : List Event) (st : Stream) :
    (run jdk st es).trace = st.trace ↔ AllHarmless jdk st es := by
  induction es generalizing st with
  | nil => exact ⟨fun _ => trivial, fun _ => rfl⟩
  | cons e es ih =>
      rw [AllHarmless, Along, ← Observer.callback_trace_eq_nil_iff, run_cons]
      constructor
      · intro h
        obtain ⟨more, hmore⟩ := trace_run jdk es (st.deliver jdk e)
        rw [hmore, trace_deliver, List.append_assoc, List.append_right_eq_self,
          List.append_eq_nil_iff] at h
        rcases h with ⟨hfirst, hrest⟩
        refine ⟨hfirst, (ih _).mp ?_⟩
        rw [hmore, hrest, List.append_nil]
      · rintro ⟨hfirst, hrest⟩
        rw [(ih _).mpr hrest, trace_deliver, hfirst, List.append_nil]

/-- Once the observer has ended, no later callback of the run executes a statement,
commits, rolls back, closes or responds. -/
def Absorbing (jdk : Jdk) (st : Stream) (es : List Event) : Prop :=
  ∀ pre e post, es = pre ++ e :: post → EndsObserver jdk (run jdk st pre).observer e →
    (run jdk st es).trace = (run jdk st (pre ++ [e])).trace

/-- **The end of a stream is final exactly when** everything delivered after it is
harmless. -/
theorem absorbing_iff (jdk : Jdk) (st : Stream) (es : List Event) :
    Absorbing jdk st es ↔
      ∀ pre e post, es = pre ++ e :: post → EndsObserver jdk (run jdk st pre).observer e →
        AllHarmless jdk (run jdk st (pre ++ [e])) post := by
  have hsplit : ∀ pre e post, es = pre ++ e :: post →
      run jdk st es = run jdk (run jdk st (pre ++ [e])) post := by
    rintro pre e post rfl
    rw [← run_append, List.append_assoc, List.singleton_append]
  constructor
  · intro h pre e post hes hends
    rw [← trace_run_eq_iff, ← hsplit pre e post hes]
    exact h pre e post hes hends
  · intro h pre e post hes hends
    rw [hsplit pre e post hes, trace_run_eq_iff]
    exact h pre e post hes hends

/-- A header whose log row raises. -/
def failedHeader : Event :=
  (.onNext ⟨0, .header { transName := "abc" }⟩, { log := { raised := true } })

/-- The half-close that gRPC had received before the failure makes the observer commit,
close and answer again. -/
theorem late_half_close_acts :
    EndsObserver Jdk.ascii (start (some 7)).observer failedHeader ∧
      (run Jdk.ascii (start (some 7)) [failedHeader, (.onCompleted, {})]).trace =
        (run Jdk.ascii (start (some 7)) [failedHeader]).trace ++
          [.commit true, .close true, .respond (.msgOnSuccess 0 7)] ∧
      ¬ Absorbing Jdk.ascii (start (some 7)) [failedHeader, (.onCompleted, {})] := by
  have hends : EndsObserver Jdk.ascii (start (some 7)).observer failedHeader := rfl
  refine ⟨hends, rfl, ?_⟩
  intro h
  have hsame := h [] _ _ rfl hends
  revert hsame
  decide

end Stream

end AuroraSizing.Transaction

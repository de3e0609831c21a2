import AuroraSizing.Transaction.Verdict

/-!
# Runs of a transaction stream

Two run lemmas carry every result about whole streams: `session_run` turns the
database session after a run into a list of blocks, one for each callback, and
`sent_run` says which single response gRPC sends. The id is read from the result
set by the first message; `run_start` and `sent_start_unknown` split a stream on
whether that succeeds.
-/

namespace AuroraSizing.Transaction

open Foundation.Journal

/-- The blocks of a run, with the part index the observer has at each. -/
def blocks (jdk : Jdk) (id : JLong) : ℕ → List Event → List (Block Stmt)
  | _, [] => []
  | k, e :: es => eventBlock jdk id k e :: blocks jdk id (nextIndex jdk k e) es

/-- The response of a run: that of its first callback that does not just serve
its message, unless gRPC had cancelled the call. -/
def answer (jdk : Jdk) (id : JLong) (es : List Event) : Option TransMsgResponse :=
  (es.find? fun e => !servedEvent jdk e).bind fun e =>
    if e.1 = .onError then none else (intOf id).bind fun i => eventResponse jdk i e

namespace Stream

theorem run_append (jdk : Jdk) (st : Stream) (es fs : List Event) :
    run jdk st (es ++ fs) = run jdk (run jdk st es) fs := List.foldl_append

theorem deliver_observer (jdk : Jdk) (st : Stream) (e : Event) {id : JLong}
    (h : st.observer.txnId = some id) :
    (st.deliver jdk e).observer =
      { st.observer with transpartIndex := nextIndex jdk st.observer.transpartIndex e } :=
  Observer.callback_observer jdk st.observer h e

/-- An observer keeps the id it has read. -/
theorem deliver_knows (jdk : Jdk) {st : Stream} (e : Event) {id : JLong}
    (h : st.observer.txnId = some id) : (st.deliver jdk e).observer.txnId = some id := by
  rw [deliver_observer jdk st e h]
  exact h

theorem session_run (jdk : Jdk) (es : List Event) (st : Stream) {id : JLong}
    (h : st.observer.txnId = some id) :
    (run jdk st es).session =
      runBlocks st.session (blocks jdk id st.observer.transpartIndex es) := by
  induction es generalizing st with
  | nil => rfl
  | cons e es ih =>
      have hobs := deliver_observer jdk st e h
      rw [run_cons, ih _ (by rw [hobs]; exact h), session_deliver,
        Observer.callback_entries jdk st.observer h, blocks, runBlocks_cons, hobs]

theorem deliver_closed (jdk : Jdk) (st : Stream) (e : Event) (h : st.callOpen = false) :
    (st.deliver jdk e).callOpen = false ∧ (st.deliver jdk e).sent = st.sent := by
  simp [deliver, openFor, h]

theorem sent_run_closed (jdk : Jdk) (es : List Event) (st : Stream)
    (h : st.callOpen = false) : (run jdk st es).sent = st.sent := by
  induction es generalizing st with
  | nil => rfl
  | cons e es ih =>
      obtain ⟨hclosed, hsent⟩ := deliver_closed jdk st e h
      rw [run_cons, ih _ hclosed, hsent]

/-- The run lemma for responses: at most one is sent, and `answer` names it. -/
theorem sent_run (jdk : Jdk) (es : List Event) (st : Stream) {id : JLong}
    (h : st.observer.txnId = some id) (hopen : st.callOpen = true) :
    (run jdk st es).sent = st.sent ++ (answer jdk id es).toList := by
  induction es generalizing st with
  | nil => simp [answer]
  | cons e es ih =>
      have hresp := Observer.callback_responses jdk st.observer h e
      have hsurv := Observer.callback_survives jdk st.observer h e
      cases hserved : servedEvent jdk e with
      | true =>
          rcases e with ⟨cb, o⟩
          cases cb with
          | onCompleted => cases hserved
          | onError => cases hserved
          | onNext r =>
              have hv : verdict jdk r o = .served := by simpa [servedEvent] using hserved
              have hnone :
                  ((intOf id).bind fun i => eventResponse jdk i (.onNext r, o)) = none := by
                cases intOf id <;> simp [eventResponse, hv]
              rw [hnone] at hresp
              rw [hserved] at hsurv
              have hstay : (st.deliver jdk (.onNext r, o)).callOpen = true := by
                simpa [deliver, openFor, hopen, Bool.and_assoc] using hsurv
              have hsent : (st.deliver jdk (.onNext r, o)).sent = st.sent := by
                simp [deliver, openFor, hopen, hresp]
              rw [run_cons, ih _ (deliver_knows jdk _ h) hstay, hsent]
              simp [answer, hserved]
      | false =>
          rw [hserved] at hsurv
          have hclosed : (st.deliver jdk e).callOpen = false := by
            simp only [deliver, Bool.and_assoc, hsurv, Bool.and_false]
          have hans : answer jdk id (e :: es) =
              if e.1 = .onError then none else (intOf id).bind fun i => eventResponse jdk i e := by
            simp [answer, hserved]
          rw [run_cons, sent_run_closed jdk es _ hclosed, hans]
          by_cases hcancel : e.1 = .onError
          · simp [deliver, openFor, hcancel]
          · simp [deliver, openFor, hopen, hcancel, hresp]

/-- A stream whose observer has read its id. -/
def known (id : JLong) : Stream :=
  { observer := { txnId := some id, resultSet := some id } }

end Stream

/-- The first callback is a message, and reading the id for it succeeds. -/
def Opens (resultSet : Option JLong) (es : List Event) (id : JLong) : Prop :=
  resultSet = some id ∧ ∃ r o rest, es = (.onNext r, o) :: rest ∧ o.getLong = true

namespace Stream

/-- The first message makes no difference between an observer that reads its id and one
that has it. -/
theorem callback_start (jdk : Jdk) (id : JLong) (r : CmdTransactionRequest) {o : Outcomes}
    (hget : o.getLong = true) :
    (start (some id)).observer.callback jdk (.onNext r, o) =
      (known id).observer.callback jdk (.onNext r, o) := by
  have hread : ((start (some id)).observer.readTxnId o).result = .ok id := by
    simp [start, Observer.readTxnId, hget]
  have hknown : ((known id).observer.readTxnId o).result = .ok id :=
    Observer.readTxnId_known rfl o
  have hs := Observer.onNext_spec jdk (start (some id)).observer r o hread
  have hk := Observer.onNext_spec jdk (known id).observer r o hknown
  apply Prod.ext
  · exact hs.1.trans hk.1.symm
  · exact hs.2.trans hk.2.symm

theorem deliver_start (jdk : Jdk) (id : JLong) (r : CmdTransactionRequest) {o : Outcomes}
    (hget : o.getLong = true) :
    (start (some id)).deliver jdk (.onNext r, o) = (known id).deliver jdk (.onNext r, o) := by
  simp only [deliver, callback_start jdk id r hget]
  rfl

theorem run_start (jdk : Jdk) {resultSet : Option JLong} {es : List Event} {id : JLong}
    (h : Opens resultSet es id) : run jdk (start resultSet) es = run jdk (known id) es := by
  rcases h with ⟨rfl, r, o, rest, rfl, hget⟩
  rw [run_cons, run_cons, deliver_start jdk id r hget]

/-- Without an id no response can be built, and the exception ends the call. -/
theorem sent_start_unknown (jdk : Jdk) {resultSet : Option JLong} {es : List Event}
    (h : ¬ ∃ id, Opens resultSet es id) : (run jdk (start resultSet) es).sent = [] := by
  cases es with
  | nil => rfl
  | cons e es =>
      rcases e with ⟨cb, o⟩
      have hfirst : ((start resultSet).deliver jdk (cb, o)).callOpen = false ∧
          ((start resultSet).deliver jdk (cb, o)).sent = [] := by
        have hunknown : ∀ reached, (start resultSet).observer.answerId reached = none :=
          Observer.answerId_unknown rfl
        cases cb with
        | onCompleted =>
            have hresult := (Observer.onCompleted_spec jdk (start resultSet).observer o).2
            have hnone := Observer.onCompleted_responses jdk (start resultSet).observer o
            rw [hunknown] at hresult hnone
            simp only [deliver, Observer.callback, hresult, hnone]
            exact ⟨Bool.and_false _, ite_self _⟩
        | onError => exact ⟨rfl, rfl⟩
        | onNext r =>
            cases resultSet with
            | none => exact ⟨rfl, rfl⟩
            | some id =>
                cases hget : o.getLong with
                | true => exact absurd ⟨id, rfl, r, o, es, rfl, hget⟩ h
                | false =>
                    have hread : ((start (some id)).observer.readTxnId o).result =
                        .error .sqlException := by
                      simp [start, Observer.readTxnId, hget]
                    have hresult := (Observer.onError_spec jdk (start (some id)).observer o).2
                    have hnone := Observer.onError_responses jdk (start (some id)).observer o
                    rw [hunknown] at hresult hnone
                    simp only [deliver, Observer.callback, Observer.onNext, hread,
                      Observer.handle, Jdbc.throw, List.nil_append, hresult, hnone]
                    exact ⟨Bool.and_false _, ite_self _⟩
      rw [run_cons, sent_run_closed jdk es _ hfirst.1, hfirst.2]

/-- At most one response leaves the server. -/
theorem sent_start (jdk : Jdk) (resultSet : Option JLong) (es : List Event) :
    ∃ m : Option TransMsgResponse, (run jdk (start resultSet) es).sent = m.toList := by
  by_cases hopens : ∃ id, Opens resultSet es id
  · rcases hopens with ⟨id, hid⟩
    rw [run_start jdk hid, sent_run jdk es (known id) rfl rfl]
    exact ⟨answer jdk id es, rfl⟩
  · exact ⟨none, sent_start_unknown jdk hopens⟩

end Stream

end AuroraSizing.Transaction

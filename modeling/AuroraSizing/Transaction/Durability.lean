import AuroraSizing.Transaction.Runs

/-!
# The answer of a stream against what it made durable

A client reads `MsgOnSuccess` as "everything is in the database" and
`MsgOnFailure` as "nothing is". Neither holds on every run, and the two iff
theorems of this file say exactly when they do: the success answer is sent even
though the commit of the half-close raised, and a failure answer does not take
back what an earlier trailer, or a commit delivered after the failure, made
durable.
-/

namespace AuroraSizing.Transaction

open Foundation.Journal

abbrev Message := CmdTransactionRequest × Outcomes

/-- How a client ends its side of the stream. -/
inductive Terminal where
  | halfClose
  | cancel
deriving DecidableEq, Repr

def Terminal.callback : Terminal → Callback
  | .halfClose => .onCompleted
  | .cancel => .onError

/-- The callbacks of a stream: its messages, then at most one end. -/
def events (reqs : List Message) (fin : Option (Terminal × Outcomes)) : List Event :=
  reqs.map (fun q => (.onNext q.1, q.2)) ++ (fin.map fun t => (t.1.callback, t.2)).toList

/-- Every statement the messages of a stream ask for, in order. -/
def streamStmts (jdk : Jdk) (id : JLong) : ℕ → List Message → List Stmt
  | _, [] => []
  | k, q :: reqs =>
      messageStmts jdk q.1 id k q.2.now ++
        streamStmts jdk id (if isPart q.1 then k + 1 else k) reqs

/-- Every message of a non-empty stream is served, and the id fits a response. -/
def AllServed (jdk : Jdk) (resultSet : Option JLong) (reqs : List Message) : Prop :=
  ∃ id, resultSet = some id ∧ (intOf id).isSome = true ∧
    (∃ q rest, reqs = q :: rest ∧ q.2.getLong = true) ∧
    ∀ q ∈ reqs, verdict jdk q.1 q.2 = .served

/-! ## Served streams lose nothing -/

theorem stmtWrites_good {jdk : Jdk} {o : StmtOutcome} (h : stmtVerdict jdk o = .served)
    (s : Option Stmt) : stmtWrites s o = s.toList := by
  rcases good_of_stmtVerdict h with ⟨hp, hr, -⟩
  simp [stmtWrites, hp, hr]

theorem messageWrites_served {jdk : Jdk} {r : CmdTransactionRequest} {o : Outcomes}
    (h : verdict jdk r o = .served) (id : JLong) (k : ℕ) :
    messageWrites jdk r id k o = messageStmts jdk r id k o.now := by
  obtain ⟨hop, hlog⟩ := verdict_served_iff.mp h
  have hopWrites : stmtWrites (opStmt? jdk r id o.now) o.op = (opStmt? jdk r id o.now).toList := by
    cases hr : transType r with
    | header => simp [opStmt?, hr, stmtWrites]
    | trailer => simp [opStmt?, hr, stmtWrites]
    | unrecognized => simp [opStmt?, hr, stmtWrites]
    | insert => exact stmtWrites_good (timedVerdict_served (by simpa [opVerdict, hr] using hop)) _
    | update => exact stmtWrites_good (timedVerdict_served (by simpa [opVerdict, hr] using hop)) _
    | rename => exact stmtWrites_good (by simpa [opVerdict, hr] using hop) _
    | delete => exact stmtWrites_good (by simpa [opVerdict, hr] using hop) _
  have hlogWrites : stmtWrites (logStmt? r id k o.now) o.log = (logStmt? r id k o.now).toList := by
    by_cases hr : transType r = .trailer
    · simp [logStmt?, hr, stmtWrites]
    · exact stmtWrites_good (by simpa [logVerdict, hr] using hlog) _
  rw [messageWrites, hopWrites, if_pos hop, hlogWrites, messageStmts]

theorem blocks_append (jdk : Jdk) (id : JLong) (es fs : List Event) (k : ℕ) :
    blocks jdk id k (es ++ fs) =
      blocks jdk id k es ++ blocks jdk id (es.foldl (nextIndex jdk) k) fs := by
  induction es generalizing k with
  | nil => rfl
  | cons e es ih => simp [blocks, ih]

theorem blocks_served_writes (jdk : Jdk) (id : JLong) (reqs : List Message) (k : ℕ)
    (h : ∀ q ∈ reqs, verdict jdk q.1 q.2 = .served) :
    (blocks jdk id k (events reqs none)).flatMap Block.writes = streamStmts jdk id k reqs := by
  induction reqs generalizing k with
  | nil => rfl
  | cons q reqs ih =>
      have hq := h q List.mem_cons_self
      have hrest := ih (if isPart q.1 then k + 1 else k)
        (fun p hp => h p (List.mem_cons_of_mem _ hp))
      have hnext : nextIndex jdk k (.onNext q.1, q.2) = if isPart q.1 then k + 1 else k := by
        simp [nextIndex, hq]
      show messageWrites jdk q.1 id k q.2 ++
        (blocks jdk id (nextIndex jdk k (.onNext q.1, q.2)) (events reqs none)).flatMap
          Block.writes = _
      rw [messageWrites_served hq, hnext, hrest, streamStmts]

theorem blocks_served_no_abort (jdk : Jdk) (id : JLong) (reqs : List Message) (k : ℕ)
    (h : ∀ q ∈ reqs, verdict jdk q.1 q.2 = .served) :
    ∀ b ∈ blocks jdk id k (events reqs none), b.ending ≠ .abort := by
  induction reqs generalizing k with
  | nil =>
      intro b hb
      cases hb
  | cons q reqs ih =>
      intro b hb
      have hq := h q List.mem_cons_self
      rcases List.mem_cons.mp hb with rfl | hb
      · show eventEnding jdk (.onNext q.1, q.2) ≠ .abort
        simp only [eventEnding, hq, serveEnding]
        split <;> simp
      · exact ih _ (fun p hp => h p (List.mem_cons_of_mem _ hp)) b hb

/-- A served stream whose final commit returns has made durable exactly the
statements of its messages, in order. -/
theorem durable_of_served (jdk : Jdk) (id : JLong) (reqs : List Message) (o : Outcomes)
    (h : ∀ q ∈ reqs, verdict jdk q.1 q.2 = .served) (hcommit : o.commit = true) :
    ((Stream.known id).run jdk (events reqs (some (.halfClose, o)))).durable =
      streamStmts jdk id 0 reqs := by
  have hsplit : events reqs (some (.halfClose, o)) =
      events reqs none ++ [(.onCompleted, o)] := by
    simp [events, Terminal.callback]
  have hlast : ∀ k, eventBlock jdk id k (.onCompleted, o) = ⟨[], .commit⟩ := by
    intro k
    simp [eventBlock, eventWrites, eventEnding, hcommit]
  have hkept := runBlocks_no_abort Session.fresh _ (blocks_served_no_abort jdk id reqs 0 h)
  rw [blocks_served_writes jdk id reqs 0 h] at hkept
  have hknown : (Stream.known id).observer.txnId = some id := rfl
  rw [Stream.durable, Stream.session_run jdk _ (Stream.known id) hknown, hsplit,
    blocks_append]
  simp only [blocks, hlast]
  rw [runBlocks, List.flatMap_append, replay_append]
  exact hkept

/-! ## Reading the answer back -/

theorem answer_eq_some {jdk : Jdk} {id : JLong} {es : List Event} {m : TransMsgResponse} :
    answer jdk id es = some m ↔
      ∃ pre e post i, es = pre ++ e :: post ∧ (∀ d ∈ pre, servedEvent jdk d = true) ∧
        servedEvent jdk e = false ∧ e.1 ≠ .onError ∧ intOf id = some i ∧
        eventResponse jdk i e = some m := by
  unfold answer
  constructor
  · intro h
    obtain ⟨e, hfind, he⟩ := Option.bind_eq_some_iff.mp h
    obtain ⟨hun, pre, post, rfl, hpre⟩ := List.find?_eq_some_iff_append.mp hfind
    by_cases hcancel : e.1 = .onError
    · simp [hcancel] at he
    · rw [if_neg hcancel] at he
      obtain ⟨i, hi, hm⟩ := Option.bind_eq_some_iff.mp he
      exact ⟨pre, e, post, i, rfl, by simpa using hpre, by simpa using hun, hcancel, hi, hm⟩
  · rintro ⟨pre, e, post, i, rfl, hpre, hun, hcancel, hi, hm⟩
    have hfind : (pre ++ e :: post).find? (fun e => !servedEvent jdk e) = some e :=
      List.find?_eq_some_iff_append.mpr
        ⟨by simpa using hun, pre, post, rfl, by simpa using hpre⟩
    rw [hfind]
    simp [hcancel, hi, hm]

/-- What gRPC sent on a stream, in terms of `answer`. -/
theorem mem_sent_iff {jdk : Jdk} {resultSet : Option JLong} {es : List Event}
    {m : TransMsgResponse} :
    m ∈ ((Stream.start resultSet).run jdk es).sent ↔
      ∃ id, Opens resultSet es id ∧ answer jdk id es = some m := by
  constructor
  · intro h
    -- without an id the observer never gets to send anything
    by_cases hopens : ∃ id, Opens resultSet es id
    · rcases hopens with ⟨id, hid⟩
      rw [Stream.run_start jdk hid, Stream.sent_run jdk es (Stream.known id) rfl rfl] at h
      exact ⟨id, hid, by simpa [Stream.known] using h⟩
    · rw [Stream.sent_start_unknown jdk hopens] at h
      cases h
  · rintro ⟨id, hid, hm⟩
    rw [Stream.run_start jdk hid, Stream.sent_run jdk es (Stream.known id) rfl rfl, hm]
    simp

/-! ## `MsgOnSuccess` -/

/-- `MsgOnSuccess` promises that everything the messages ask for is durable,
and that the final commit did not raise. -/
def SuccessDurable (jdk : Jdk) (resultSet : Option JLong) (reqs : List Message)
    (fin : Option (Terminal × Outcomes)) : Prop :=
  ∀ ack txnId, .msgOnSuccess ack txnId ∈
      ((Stream.start resultSet).run jdk (events reqs fin)).sent →
    (∃ id, resultSet = some id ∧
      ((Stream.start resultSet).run jdk (events reqs fin)).durable =
        streamStmts jdk id 0 reqs) ∧
    ∀ o, fin = some (.halfClose, o) → o.commit = true

theorem opens_events {resultSet : Option JLong} {reqs : List Message}
    {fin : Option (Terminal × Outcomes)} {id : JLong}
    (h : Opens resultSet (events reqs fin) id) :
    resultSet = some id ∧ ∃ q rest, reqs = q :: rest ∧ q.2.getLong = true := by
  rcases h with ⟨rfl, r, o, rest, hes, hget⟩
  refine ⟨rfl, ?_⟩
  cases reqs with
  | nil =>
      rcases fin with _ | ⟨t, p⟩
      · simp [events] at hes
      · cases t <;> simp [events, Terminal.callback] at hes
  | cons q reqs =>
      obtain ⟨h1, -⟩ := List.cons.inj hes
      obtain ⟨-, rfl⟩ := Prod.mk.inj h1
      exact ⟨q, reqs, rfl, hget⟩

/-- A list whose members all have `P` lies before the first element without it. -/
theorem mem_pre_of_split {α : Type*} {l₁ l₂ pre post : List α} {e : α}
    (h : l₁ ++ l₂ = pre ++ e :: post) (P : α → Prop) (hl : ∀ x ∈ l₁, P x) (he : ¬ P e) :
    ∀ x ∈ l₁, x ∈ pre := by
  rcases List.append_eq_append_iff.mp h with ⟨a, rfl, -⟩ | ⟨c, rfl, hc⟩
  · intro x hx
    exact List.mem_append_left _ hx
  · cases c with
    | nil => simp
    | cons d c =>
        obtain ⟨rfl, -⟩ := List.cons.inj hc
        exact absurd (hl e (by simp)) he

theorem eventResponse_success {jdk : Jdk} {i : JInt} {e : Event} {ack txnId : JInt}
    (h : eventResponse jdk i e = some (.msgOnSuccess ack txnId)) : e.1 = .onCompleted := by
  rcases e with ⟨cb, o⟩
  cases cb with
  | onNext r =>
      simp only [eventResponse] at h
      split at h <;> simp at h
  | onCompleted => rfl
  | onError =>
      simp only [eventResponse] at h
      split at h <;> simp at h

/-- No message is a half-close, so what comes before one has all messages. -/
theorem mem_pre_of_completed {reqs : List Message} {fin : Option (Terminal × Outcomes)}
    {pre post : List Event} {e : Event} (h : events reqs fin = pre ++ e :: post)
    (he : e.1 = .onCompleted) {q : Message} (hq : q ∈ reqs) : (.onNext q.1, q.2) ∈ pre := by
  refine mem_pre_of_split h (fun d => d.1 ≠ .onCompleted) ?_ ?_ _ (List.mem_map.mpr ⟨q, hq, rfl⟩)
  · intro d hd
    obtain ⟨p, -, rfl⟩ := List.mem_map.mp hd
    simp
  · simpa using he

theorem halfClose_of_completed {reqs : List Message} {fin : Option (Terminal × Outcomes)}
    {e : Event} (h : e ∈ events reqs fin) (he : e.1 = .onCompleted) :
    ∃ o, fin = some (.halfClose, o) ∧ e = (.onCompleted, o) := by
  rcases List.mem_append.mp h with hmem | hmem
  · obtain ⟨q, -, rfl⟩ := List.mem_map.mp hmem
    cases he
  · rcases fin with _ | ⟨t, o⟩
    · simp at hmem
    · cases t with
      | halfClose => exact ⟨o, rfl, by simpa [Terminal.callback] using hmem⟩
      | cancel =>
          have hcancel : e = (.onError, o) := by simpa [Terminal.callback] using hmem
          rw [hcancel] at he
          cases he

/-- `MsgOnSuccess` is sent exactly on a served stream that the client
half-closes, whatever its last commit does unless the connection is a proxy. -/
theorem success_sent_iff {jdk : Jdk} {resultSet : Option JLong} {reqs : List Message}
    {fin : Option (Terminal × Outcomes)} :
    (∃ ack txnId, .msgOnSuccess ack txnId ∈
        ((Stream.start resultSet).run jdk (events reqs fin)).sent) ↔
      AllServed jdk resultSet reqs ∧
        ∃ o, fin = some (.halfClose, o) ∧ completionAnswered jdk o = true := by
  constructor
  · rintro ⟨ack, txnId, h⟩
    obtain ⟨id, hopens, hans⟩ := mem_sent_iff.mp h
    obtain ⟨hrs, hhead⟩ := opens_events hopens
    obtain ⟨pre, e, post, i, hes, hpre, -, -, hi, hm⟩ := answer_eq_some.mp hans
    have hcompleted := eventResponse_success hm
    have hserved : ∀ q ∈ reqs, verdict jdk q.1 q.2 = .served := by
      intro q hq
      simpa [servedEvent] using hpre _ (mem_pre_of_completed hes hcompleted hq)
    have he : e ∈ events reqs fin := by
      rw [hes]
      simp
    obtain ⟨o, hfin, rfl⟩ := halfClose_of_completed he hcompleted
    refine ⟨⟨id, hrs, by rw [hi]; rfl, hhead, hserved⟩, o, hfin, ?_⟩
    by_contra hnot
    rw [eventResponse, if_neg hnot] at hm
    cases hm
  · rintro ⟨⟨id, rfl, hfit, ⟨q, rest, rfl, hget⟩, hserved⟩, o, rfl, hanswered⟩
    obtain ⟨i, hi⟩ := Option.isSome_iff_exists.mp hfit
    refine ⟨0, i, mem_sent_iff.mpr ⟨id, ⟨rfl, q.1, q.2, _, rfl, hget⟩, ?_⟩⟩
    refine answer_eq_some.mpr ⟨(q :: rest).map (fun q => (.onNext q.1, q.2)),
      (.onCompleted, o), [], i, rfl, ?_, rfl, by simp, hi, if_pos hanswered⟩
    intro d hd
    obtain ⟨p, hp, rfl⟩ := List.mem_map.mp hd
    simpa [servedEvent] using hserved p hp

/-- **`MsgOnSuccess` is truthful except after a failed final commit**, and on a proxy
always: there the commit's exception leaves `onCompleted` without an answer. -/
theorem success_durable_iff (jdk : Jdk) (resultSet : Option JLong) (reqs : List Message)
    (fin : Option (Terminal × Outcomes)) :
    SuccessDurable jdk resultSet reqs fin ↔
      ¬ (AllServed jdk resultSet reqs ∧ jdk.proxied = false ∧
        ∃ o, fin = some (.halfClose, o) ∧ o.commit = false) := by
  constructor
  · rintro h ⟨hserved, hproxied, o, rfl, hcommit⟩
    have hanswered : completionAnswered jdk o = true := by simp [completionAnswered, hproxied]
    obtain ⟨ack, txnId, hsent⟩ := success_sent_iff.mpr ⟨hserved, o, rfl, hanswered⟩
    have := (h ack txnId hsent).2 o rfl
    rw [hcommit] at this
    cases this
  · intro h ack txnId hsent
    obtain ⟨hserved, o, rfl, hanswered⟩ := success_sent_iff.mp ⟨ack, txnId, hsent⟩
    have hcommit : o.commit = true := by
      by_contra hc
      have hc : o.commit = false := by simpa using hc
      have hproxied : jdk.proxied = false := by
        simpa [completionAnswered, hc] using hanswered
      exact h ⟨hserved, hproxied, o, rfl, hc⟩
    obtain ⟨id, hopens, -⟩ := mem_sent_iff.mp hsent
    rcases hserved with ⟨id', hrs, -, -, hall⟩
    have hid : id = id' := Option.some.inj (hopens.1.symm.trans hrs)
    subst hid
    refine ⟨⟨id, hrs, ?_⟩, ?_⟩
    · rw [Stream.run_start jdk hopens]
      exact durable_of_served jdk id reqs o hall hcommit
    · intro o' ho
      cases ho
      exact hcommit

/-- A header and an insert, both executed, and a half-close whose commit raises. -/
def lostCommit : List Message × Option (Terminal × Outcomes) :=
  ([(⟨0, .header { transName := "abc" }⟩, {}),
    (⟨1, .insert { metadata := { securityName := "testSec-10"
                                 timeUpdate := "1970-01-01 00:00:00" } }⟩, {})],
   some (.halfClose, { commit := false }))

/-- On `lostCommit` the client is told `MsgOnSuccess` and nothing is durable. -/
theorem lost_commit_answered_success :
    .msgOnSuccess 0 7 ∈
        ((Stream.start (some 7)).run Jdk.ascii (events lostCommit.1 lostCommit.2)).sent ∧
      ((Stream.start (some 7)).run Jdk.ascii (events lostCommit.1 lostCommit.2)).durable = [] ∧
      ¬ SuccessDurable Jdk.ascii (some 7) lostCommit.1 lostCommit.2 := by
  have hsent : .msgOnSuccess 0 7 ∈
      ((Stream.start (some 7)).run Jdk.ascii (events lostCommit.1 lostCommit.2)).sent := by
    decide
  refine ⟨hsent, by decide, ?_⟩
  intro h
  have := (h 0 7 hsent).2 { commit := false } rfl
  cases this

end AuroraSizing.Transaction

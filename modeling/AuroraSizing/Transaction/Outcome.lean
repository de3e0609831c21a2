import AuroraSizing.Transaction.Transactor

/-!
# What `End` returns and what the server answered

`End` returns nil for every response, so it takes a `MsgOnFailure` that it receives for
a success. It gets an error for a failure only when the end of the call overtakes one of
its `Send`s. `end_agrees_iff` covers every interleaving of the two parties; `step_decreases`
and `returned_of_stuck` say that `End` always returns.
-/

namespace AuroraSizing.Transaction

open Foundation.System

theorem onCompleted_of_success {jdk : Jdk} {resultSet : Option JLong} {es : List Event}
    {ack txnId : JInt}
    (h : .msgOnSuccess ack txnId ∈ ((Stream.start resultSet).run jdk es).sent) :
    ∃ e ∈ es, e.1 = .onCompleted := by
  obtain ⟨id, -, hans⟩ := mem_sent_iff.mp h
  obtain ⟨pre, e, post, i, rfl, -, -, -, -, hm⟩ := answer_eq_some.mp hans
  exact ⟨e, by simp, eventResponse_success hm⟩

/-- A half-close ends the call, with a response or with an exception. -/
theorem Stream.callOpen_onCompleted (jdk : Jdk) (st : Stream) (o : Outcomes) :
    (st.deliver jdk (.onCompleted, o)).callOpen = false := by
  rcases st with ⟨⟨txnId, k, rs⟩, isOpen, trace, sent⟩
  rcases txnId with _ | id
  · have hresult := (Observer.onCompleted_spec jdk ⟨none, k, rs⟩ o).2
    rw [Observer.answerId_unknown rfl] at hresult
    simp only [Stream.deliver, Observer.callback, hresult]
    exact Bool.and_false _
  · have hsurvives := Observer.callback_survives jdk ⟨some id, k, rs⟩ rfl (.onCompleted, o)
    simp only [Stream.deliver, Bool.and_assoc, hsurvives]
    exact Bool.and_false _

/-- What `End` still does, apart from its `Send`s. -/
def EndPhase.weight : EndPhase → ℕ
  | .sending => 3
  | .receiving => 1
  | .returned _ => 0

namespace Rpc

variable {jdk : Jdk} {g : GrpcTransactor} {resultSet : Option JLong}

/-- The requests among the callbacks. -/
def received (es : List Event) : List CmdTransactionRequest :=
  es.filterMap fun e => match e.1 with
    | .onNext r => some r
    | .onCompleted | .onError => none

/-- No half-close has left the client. -/
structure NotHalfClosed (w : Rpc) : Prop where
  halfClosing : w.halfClosing = false
  callbacks : ∀ e ∈ w.callbacks, e.1 ≠ .onCompleted

theorem NotHalfClosed.of_eq {w w' : Rpc} (h : w.NotHalfClosed)
    (hhalf : w'.halfClosing = w.halfClosing) (hcallbacks : w'.callbacks = w.callbacks) :
    w'.NotHalfClosed :=
  ⟨hhalf.trans h.halfClosing, hcallbacks ▸ h.callbacks⟩

structure Inv (jdk : Jdk) (g : GrpcTransactor) (resultSet : Option JLong) (w : Rpc) : Prop where
  server : w.listening = true → w.server = (Stream.start resultSet).run jdk w.callbacks
  deaf : w.listening = false →
    w.callbacks = [] ∧ w.server.sent = [] ∧ w.server.callOpen = false
  /-- Every request is with the client, under way or with the server, in order. -/
  order : received w.callbacks ++ (w.toServer ++ w.unsent) = g.requests
  seen : w.endSeen = true → w.server.callOpen = false
  sending : w.phase = .sending → w.NotHalfClosed
  receiving : w.phase = .receiving →
    w.unsent = [] ∧ (w.server.callOpen = true → w.halfClosing = true)
  refused : w.phase = .returned (some .eof) →
    w.unsent ≠ [] ∧ w.endSeen = true ∧ w.NotHalfClosed
  received : ∀ err, w.phase = .returned err → err ≠ some .eof →
    w.unsent = [] ∧ w.endSeen = true ∧
      err = if w.server.sent.isEmpty then some .status else none

theorem inv_start (listening : Bool) : Inv jdk g resultSet (start g listening resultSet) where
  server := by
    intro h
    have h : listening = true := h
    subst h
    rfl
  deaf := by
    intro h
    exact ⟨rfl, rfl, h⟩
  order := rfl
  seen := by
    intro h
    cases h
  sending := fun _ => ⟨rfl, fun _ h => absurd h List.not_mem_nil⟩
  receiving := by
    intro h
    cases h
  refused := by
    intro h
    cases h
  received := by
    intro err h
    cases h

theorem callback_server {w : Rpc} (e : Event)
    (h : w.server = (Stream.start resultSet).run jdk w.callbacks) :
    (w.callback jdk e).server = (Stream.start resultSet).run jdk (w.callback jdk e).callbacks := by
  show w.server.deliver jdk e = Stream.run jdk _ (w.callbacks ++ [e])
  rw [Stream.run_append, ← h]
  rfl

theorem received_append (es : List Event) (e : Event) :
    Rpc.received (es ++ [e]) = Rpc.received es ++ Rpc.received [e] := by
  simp [Rpc.received]

theorem inv_deliver {w : Rpc} {o : Outcomes} {req : CmdTransactionRequest}
    {rest : List CmdTransactionRequest} (hinv : Inv jdk g resultSet w)
    (hlistening : w.listening = true) (htoServer : w.toServer = req :: rest) :
    Inv jdk g resultSet (callback jdk { w with toServer := rest } (.onNext req, o)) where
  server := fun _ => callback_server _ (hinv.server hlistening)
  deaf := by
    intro hdeaf
    exact absurd hlistening (by simpa [callback] using hdeaf)
  order := by
    have horder := hinv.order
    rw [htoServer] at horder
    show Rpc.received (w.callbacks ++ [(.onNext req, o)]) ++ (rest ++ w.unsent) = _
    rw [received_append, ← horder, List.append_assoc]
    rfl
  seen := fun hseen => (Stream.deliver_closed jdk w.server _ (hinv.seen hseen)).1
  sending := by
    intro hphase
    obtain ⟨hhalf, hcallbacks⟩ := hinv.sending hphase
    exact ⟨hhalf, List.forall_mem_append.mpr ⟨hcallbacks, by simp⟩⟩
  receiving := by
    intro hphase
    obtain ⟨hunsent, hhalf⟩ := hinv.receiving hphase
    refine ⟨hunsent, fun hopen => hhalf ?_⟩
    by_contra hclosed
    have hended := (Stream.deliver_closed jdk w.server (.onNext req, o) (by simpa using hclosed)).1
    exact absurd (hended.symm.trans hopen) Bool.false_ne_true
  refused := by
    intro hphase
    obtain ⟨hunsent, hseen, hhalf, hcallbacks⟩ := hinv.refused hphase
    exact ⟨hunsent, hseen, hhalf, List.forall_mem_append.mpr ⟨hcallbacks, by simp⟩⟩
  received := by
    intro err hphase herr
    obtain ⟨hunsent, hseen, hreturned⟩ := hinv.received err hphase herr
    refine ⟨hunsent, hseen, ?_⟩
    show err = if (w.server.deliver jdk (.onNext req, o)).sent.isEmpty then _ else _
    rw [(Stream.deliver_closed jdk w.server _ (hinv.seen hseen)).2]
    exact hreturned

theorem inv_deliverHalfClose {w : Rpc} {o : Outcomes} (hinv : Inv jdk g resultSet w)
    (hlistening : w.listening = true) (hhalf : w.halfClosing = true) :
    Inv jdk g resultSet (callback jdk { w with halfClosing := false } (.onCompleted, o)) where
  server := fun _ => callback_server _ (hinv.server hlistening)
  deaf := by
    intro hdeaf
    exact absurd hlistening (by simpa [callback] using hdeaf)
  order := by
    show Rpc.received (w.callbacks ++ [(.onCompleted, o)]) ++ (w.toServer ++ w.unsent) = _
    rw [received_append, ← hinv.order]
    simp [Rpc.received]
  seen := fun _ => Stream.callOpen_onCompleted jdk w.server o
  sending := by
    intro hphase
    exact absurd (hinv.sending hphase).halfClosing (by simp [hhalf])
  receiving := by
    intro hphase
    refine ⟨(hinv.receiving hphase).1, ?_⟩
    intro hopen
    have hended := Stream.callOpen_onCompleted jdk w.server o
    exact absurd (hended.symm.trans hopen) Bool.false_ne_true
  refused := by
    intro hphase
    exact absurd (hinv.refused hphase).2.2.halfClosing (by simp [hhalf])
  received := by
    intro err hphase herr
    obtain ⟨hunsent, hseen, hreturned⟩ := hinv.received err hphase herr
    refine ⟨hunsent, hseen, ?_⟩
    show err = if (w.server.deliver jdk (.onCompleted, o)).sent.isEmpty then _ else _
    rw [(Stream.deliver_closed jdk w.server _ (hinv.seen hseen)).2]
    exact hreturned

theorem inv_step {w w' : Rpc} {e : RpcEvent} (hinv : Inv jdk g resultSet w)
    (h : w.step jdk e = some w') : Inv jdk g resultSet w' := by
  cases moves_of_step h with
  | @send req rest hphase hunsent hrunning =>
      have horder := hinv.order
      rw [hunsent] at horder
      exact {
        hinv with
        order := by
          rw [← horder]
          simp
        sending := fun hsending => (hinv.sending hsending).of_eq rfl rfl
        receiving := fun hreceiving => absurd (hphase.symm.trans hreceiving) (by simp)
        refused := fun hrefused => absurd (hphase.symm.trans hrefused) (by simp)
        received := fun err hreturned => absurd (hphase.symm.trans hreturned) (by simp) }
  | @sendRefused req rest hphase hunsent hended =>
      exact {
        hinv with
        sending := by
          intro h
          cases h
        receiving := by
          intro h
          cases h
        refused := fun _ => ⟨by simp [hunsent], hended, (hinv.sending hphase).of_eq rfl rfl⟩
        received := by
          intro err h herr
          cases h
          exact absurd rfl herr }
  | closeSend hphase hunsent =>
      exact {
        hinv with
        sending := by
          intro h
          cases h
        receiving := fun _ => ⟨hunsent, fun _ => rfl⟩
        refused := by
          intro h
          cases h
        received := by
          intro err h
          cases h }
  | deliver hlistening htoServer => exact inv_deliver hinv hlistening htoServer
  | deliverHalfClose hlistening _ hhalf => exact inv_deliverHalfClose hinv hlistening hhalf
  | endArrives hended hunseen =>
      exact {
        hinv with
        seen := fun _ => hended
        sending := fun hsending => (hinv.sending hsending).of_eq rfl rfl
        refused := fun hrefused => absurd (hinv.refused hrefused).2.1 (by simp [hunseen])
        received := fun err hreturned herr =>
          absurd (hinv.received err hreturned herr).2.1 (by simp [hunseen]) }
  | recvMsg hphase hended =>
      exact {
        hinv with
        sending := by
          intro h
          cases h
        receiving := by
          intro h
          cases h
        refused := by
          intro h
          split at h <;> cases h
        received := by
          rintro err h -
          cases h
          exact ⟨(hinv.receiving hphase).1, hended, rfl⟩ }

theorem inv_run {listening : Bool} {es : List RpcEvent} {w : Rpc}
    (hrun : run (step jdk) (start g listening resultSet) es = some w) : Inv jdk g resultSet w :=
  run_preserves (fun _ _ _ hinv => inv_step hinv) (inv_start listening) hrun

/-! ## `End` returns -/

/-- How many events are left at most. -/
def measure (w : Rpc) : ℕ :=
  2 * w.unsent.length + w.toServer.length + w.phase.weight + w.halfClosing.toNat +
    (!w.endSeen).toNat

theorem step_decreases {w w' : Rpc} {e : RpcEvent} (h : w.step jdk e = some w') :
    w'.measure < w.measure := by
  cases moves_of_step h with
  | send _ hunsent =>
      simp only [measure, hunsent, List.length_append, List.length_cons, List.length_nil]
      omega
  | sendRefused hphase =>
      simp only [measure, hphase, EndPhase.weight]
      omega
  | closeSend hphase hunsent =>
      have hhalf := Bool.toNat_le w.halfClosing
      simp only [measure, hphase, hunsent, EndPhase.weight, Bool.toNat_true]
      omega
  | deliver _ htoServer =>
      simp only [measure, callback, htoServer, List.length_cons]
      omega
  | deliverHalfClose _ _ hhalf =>
      simp only [measure, callback, hhalf, Bool.toNat_true, Bool.toNat_false]
      omega
  | endArrives _ hunseen =>
      simp only [measure, hunseen, Bool.not_false, Bool.not_true, Bool.toNat_true,
        Bool.toNat_false]
      omega
  | recvMsg hphase =>
      simp only [measure, hphase, EndPhase.weight]
      omega

/-- No run of the call is longer than the requests allow. -/
theorem length_run_le {w w' : Rpc} {es : List RpcEvent} (h : run (step jdk) w es = some w') :
    es.length + w'.measure ≤ w.measure :=
  Foundation.System.length_run_le (fun _ _ _ => step_decreases) h

/-- Where nothing more can happen, `End` has returned. -/
theorem returned_of_stuck {w : Rpc} (hinv : Inv jdk g resultSet w)
    (hstuck : ∀ e, w.step jdk e = none) : ∃ err, w.phase = .returned err := by
  cases hphase : w.phase with
  | returned err => exact ⟨err, rfl⟩
  | sending =>
      exfalso
      cases hunsent : w.unsent with
      | nil =>
          have hnone := hstuck .closeSend
          simp [step, hphase, hunsent] at hnone
      | cons req rest =>
          have hnone := hstuck .send
          simp only [step, hphase, hunsent] at hnone
          split at hnone <;> cases hnone
  | receiving =>
      exfalso
      have hopen : w.server.callOpen = true := by
        by_contra hclosed
        have hclosed : w.server.callOpen = false := by simpa using hclosed
        cases hseen : w.endSeen with
        | true =>
            have hnone := hstuck .recvMsg
            simp [step, hphase, hseen] at hnone
        | false =>
            have hnone := hstuck .endArrives
            simp [step, hclosed, hseen] at hnone
      -- an open call has the half-close, or requests before it, under way
      have hhalf := (hinv.receiving hphase).2 hopen
      have hlistening : w.listening = true := by
        by_contra hdeaf
        rw [(hinv.deaf (by simpa using hdeaf)).2.2] at hopen
        cases hopen
      cases htoServer : w.toServer with
      | nil =>
          have hnone := hstuck (.deliverHalfClose {})
          simp [step, hlistening, htoServer, hhalf] at hnone
      | cons req rest =>
          have hnone := hstuck (.deliver {})
          simp [step, hlistening, htoServer] at hnone

/-! ## What it returns -/

/-- Nil exactly for `MsgOnSuccess`, and an error for `MsgOnFailure`. -/
def Agrees (w : Rpc) (err : Option GoError) : Prop :=
  (err = none ↔ ∃ ack txnId, .msgOnSuccess ack txnId ∈ w.server.sent) ∧
    ((∃ ack txnId, .msgOnFailure ack txnId ∈ w.server.sent) → err ≠ none)

/-- The server's failures, read off the callbacks. -/
theorem failure_iff {w : Rpc} (hinv : Inv jdk g resultSet w) :
    (∃ ack txnId, .msgOnFailure ack txnId ∈ w.server.sent) ↔
      FirstFails jdk resultSet w.callbacks := by
  cases hlistening : w.listening with
  | true => rw [hinv.server hlistening, failure_sent_iff]
  | false =>
      obtain ⟨hcallbacks, hsent, -⟩ := hinv.deaf hlistening
      rw [hcallbacks, hsent]
      constructor
      · rintro ⟨ack, txnId, h⟩
        cases h
      · rintro ⟨id, ⟨-, r, o, rest, h, -⟩, -⟩
        cases h

theorem sent_eq {w : Rpc} (hinv : Inv jdk g resultSet w) :
    ∃ m : Option TransMsgResponse, w.server.sent = m.toList := by
  cases hlistening : w.listening with
  | true => rw [hinv.server hlistening]; exact Stream.sent_start jdk resultSet w.callbacks
  | false => exact ⟨none, (hinv.deaf hlistening).2.1⟩

theorem no_success_of_notHalfClosed {w : Rpc} (hinv : Inv jdk g resultSet w)
    (hnot : w.NotHalfClosed) : ¬ ∃ ack txnId, .msgOnSuccess ack txnId ∈ w.server.sent := by
  rintro ⟨ack, txnId, hsent⟩
  cases hlistening : w.listening with
  | true =>
      rw [hinv.server hlistening] at hsent
      obtain ⟨e, he, hcompleted⟩ := onCompleted_of_success hsent
      exact hnot.callbacks e he hcompleted
  | false =>
      rw [(hinv.deaf hlistening).2.1] at hsent
      cases hsent

/-- **`End` always returns, and what it returns is the server's answer exactly unless**
the first message that is not served fails with a `SQLException` and all requests, the
trailer included, were sent before the end of the call reached the client. -/
theorem end_agrees_iff {listening : Bool} {es : List RpcEvent} {w : Rpc}
    (hrun : run (step jdk) (start g listening resultSet) es = some w) :
    ((∀ e, w.step jdk e = none) → ∃ err, w.phase = .returned err) ∧
      ∀ err, w.phase = .returned err →
        (Agrees w err ↔ ¬ (FirstFails jdk resultSet w.callbacks ∧ w.unsent = [])) := by
  have hinv := inv_run hrun
  refine ⟨returned_of_stuck hinv, ?_⟩
  intro err hphase
  rw [← failure_iff hinv]
  by_cases hrefused : err = some .eof
  · -- a refused Send: the server never saw the half-close
    subst hrefused
    obtain ⟨hunsent, -, hnot⟩ := hinv.refused hphase
    have hsuccess := no_success_of_notHalfClosed hinv hnot
    constructor
    · rintro - ⟨-, hall⟩
      exact hunsent hall
    · intro _
      refine ⟨⟨?_, fun h => absurd h hsuccess⟩, fun _ => by simp⟩
      intro h
      cases h
  · obtain ⟨hunsent, -, herr⟩ := hinv.received err hphase hrefused
    obtain ⟨answer, hsent⟩ := sent_eq hinv
    rw [Agrees, herr, hsent]
    rcases answer with _ | ⟨ack, txnId⟩ | ⟨ack, txnId⟩
    · simp
    · simp
    · simp [hunsent]

/-- One insert, by a client and a server that take turns. -/
def insertTestSec : GrpcTransactor :=
  ({} : GrpcTransactor).insert
    { securityName := "testSec-10", timeUpdated := "1970-01-01 00:00:00" } [7]

def servedInsert : List RpcEvent :=
  [.send, .deliver {}, .send, .deliver {}, .send, .deliver {}, .closeSend, .deliverHalfClose {},
   .endArrives, .recvMsg]

theorem served_insert_agrees :
    ∃ w, run (step Jdk.ascii) (start insertTestSec true (some 7)) servedInsert = some w ∧
      w.server.sent = [.msgOnSuccess 0 7] ∧ Agrees w none := by
  have hrun : (run (step Jdk.ascii) (start insertTestSec true (some 7)) servedInsert).map
      (fun w => (w.phase, w.server.sent)) = some (.returned none, [.msgOnSuccess 0 7]) := by
    decide +kernel
  obtain ⟨w, hw, heq⟩ := Option.map_eq_some_iff.mp hrun
  obtain ⟨hphase, hsent⟩ := Prod.mk.inj heq
  refine ⟨w, hw, hsent, ((end_agrees_iff hw).2 none hphase).mpr ?_⟩
  rw [← failure_iff (inv_run hw), hsent]
  rintro ⟨⟨ack, txnId, hmem⟩, -⟩
  simp at hmem

/-! ## A failure taken for a success -/

/-- The statement of the insert raises; the client has sent everything by then. -/
def failedInsert : List RpcEvent :=
  [.send, .send, .send, .closeSend, .deliver {},
   .deliver { op := { rows := 0, raised := true } }, .endArrives, .recvMsg]

/-- The server answers `MsgOnFailure`, and `End` returns nil. -/
theorem failure_returned_nil :
    ∃ w, run (step Jdk.ascii) (start insertTestSec true (some 7)) failedInsert = some w ∧
      w.phase = .returned none ∧ w.server.sent = [.msgOnFailure 1 7] ∧ ¬ Agrees w none := by
  have hrun : (run (step Jdk.ascii) (start insertTestSec true (some 7)) failedInsert).map
      (fun w => (w.phase, w.server.sent)) = some (.returned none, [.msgOnFailure 1 7]) := by
    decide +kernel
  obtain ⟨w, hw, heq⟩ := Option.map_eq_some_iff.mp hrun
  obtain ⟨hphase, hsent⟩ := Prod.mk.inj heq
  refine ⟨w, hw, hphase, hsent, fun h => h.2 ⟨1, 7, ?_⟩ rfl⟩
  rw [hsent]
  exact List.mem_singleton_self _

end Rpc

end AuroraSizing.Transaction

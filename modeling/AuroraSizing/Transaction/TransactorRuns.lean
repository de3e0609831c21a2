import AuroraSizing.Foundation.Outbox
import AuroraSizing.Transaction.Transactor

/-!
# The calls on one transactor

`Insert`, `Update`, `Rename` and `Delete` append to the buffer of the transactor, and `End` sends
all of it on a stream of its own. `End` leaves the buffer as it is, so what one `End` has sent
the next one sends again.
-/

namespace AuroraSizing.Transaction

open Foundation.Outbox

/-- `model.Transactor`; no handler reads the flags of a delete. -/
inductive TransactorCall where
  | insert (metadata : ModelMetadata) (mem : Bytes)
  | rename (oldMetadata newMetadata : ModelMetadata)
  | update (oldMetadata newMetadata : ModelMetadata) (mem : Bytes)
  | delete (metadata : ModelMetadata)
  | endTxn

/-- A transactor and what the streams of its `End` calls have carried. -/
structure Session where
  transactor : GrpcTransactor
  streams : List (List CmdTransactionRequest)

def SSClient.beginTxn : Session := ⟨{}, []⟩

/-- One call, on a connection that takes every `Send`. -/
def TransactorCall.run (s : Session) : TransactorCall → Session
  | .insert metadata mem => { s with transactor := s.transactor.insert metadata mem }
  | .rename oldMetadata newMetadata =>
      { s with transactor := s.transactor.rename oldMetadata newMetadata }
  | .update oldMetadata newMetadata mem =>
      { s with transactor := s.transactor.update oldMetadata newMetadata mem }
  | .delete metadata => { s with transactor := s.transactor.delete metadata }
  | .endTxn => { s with streams := s.streams ++ [s.transactor.requests] }

def Session.run (s : Session) (calls : List TransactorCall) : Session :=
  calls.foldl TransactorCall.run s

def isEnd : TransactorCall → Bool
  | .endTxn => true
  | _ => false

/-- The call as one on a buffer: what it appends to that of a new transactor. -/
def TransactorCall.outbox (c : TransactorCall) : Foundation.Outbox.Call CmdTransactionRequest :=
  match (c.run SSClient.beginTxn).transactor.buffer with
  | [r] => .put r
  | _ => .flush

/-- The operations that an `End` follows, in call order. -/
def bufferedOperations (calls : List TransactorCall) : List CmdTransactionRequest :=
  covered (calls.map TransactorCall.outbox)

def isOperation (r : CmdTransactionRequest) : Bool :=
  match r.messageRequest with
  | .header _ | .trailer => false
  | _ => true

/-- Every stream is a header, operations and a trailer, and together they carry each buffered
operation once. -/
structure SentOnce (calls : List TransactorCall) : Prop where
  form : ∀ stream ∈ (SSClient.beginTxn.run calls).streams,
    ∃ header operations trailer, stream = header :: operations ++ [trailer] ∧
      header.transSeqValue = 0 ∧ trailer.transSeqValue = 5 ∧
      ∀ r ∈ operations, isOperation r = true
  once : (SSClient.beginTxn.run calls).streams.flatMap (List.filter isOperation) =
    bufferedOperations calls

/-- No operation has two `End` calls behind it. -/
def EndedOnce (calls : List TransactorCall) : Prop :=
  ∀ before c after, calls = before ++ c :: after → isEnd c = false → after.countP isEnd ≤ 1

/-! ## The streams -/

/-- A call appends its operation, or sends the buffer. -/
theorem run_of_outbox (s : Session) (c : TransactorCall) :
    (∃ r, isEnd c = false ∧ c.outbox = .put r ∧ isOperation r = true ∧
      c.run s = { s with transactor := s.transactor.append r }) ∨
    (isEnd c = true ∧ c.outbox = .flush ∧
      c.run s = { s with streams := s.streams ++ [s.transactor.requests] }) := by
  cases c with
  | endTxn => exact .inr ⟨rfl, rfl, rfl⟩
  | insert metadata mem => exact .inl ⟨_, rfl, rfl, rfl, rfl⟩
  | rename oldMetadata newMetadata => exact .inl ⟨_, rfl, rfl, rfl, rfl⟩
  | update oldMetadata newMetadata mem => exact .inl ⟨_, rfl, rfl, rfl, rfl⟩
  | delete metadata => exact .inl ⟨_, rfl, rfl, rfl, rfl⟩

/-- The streams are the flushes of the buffer, each in a header and a trailer. -/
theorem streams_run (calls : List TransactorCall) (s : Session) :
    (s.run calls).streams = s.streams ++
      (flushes s.transactor.buffer (calls.map TransactorCall.outbox)).map
        fun buffer => GrpcTransactor.requests ⟨buffer⟩ := by
  induction calls generalizing s with
  | nil => exact (List.append_nil _).symm
  | cons c calls ih =>
      have hrun : s.run (c :: calls) = (c.run s).run calls := rfl
      rw [hrun, ih, List.map_cons]
      rcases run_of_outbox s c with ⟨r, -, houtbox, -, hstep⟩ | ⟨-, houtbox, hstep⟩
      · rw [hstep, houtbox]
        rfl
      · rw [hstep, houtbox, flushes, List.map_cons, List.append_assoc]
        rfl

/-- Only operations are in the buffer. -/
theorem operations_of_flushes (calls : List TransactorCall) (b : List CmdTransactionRequest)
    (hb : ∀ r ∈ b, isOperation r = true) :
    ∀ buffer ∈ flushes b (calls.map TransactorCall.outbox), ∀ r ∈ buffer, isOperation r = true := by
  induction calls generalizing b with
  | nil => exact fun _ hmem => absurd hmem List.not_mem_nil
  | cons c calls ih =>
      rw [List.map_cons]
      rcases run_of_outbox SSClient.beginTxn c with ⟨r, -, houtbox, hr, -⟩ | ⟨-, houtbox, -⟩
      · rw [houtbox, flushes]
        refine ih _ ?_
        intro r' hr'
        rcases List.mem_append.mp hr' with hold | hnew
        · exact hb r' hold
        · obtain rfl := List.mem_singleton.mp hnew
          exact hr
      · rw [houtbox, flushes]
        intro buffer hbuffer
        rcases List.mem_cons.mp hbuffer with rfl | hrest
        · exact hb
        · exact ih b hb buffer hrest

theorem filter_requests {buffer : List CmdTransactionRequest}
    (h : ∀ r ∈ buffer, isOperation r = true) :
    (GrpcTransactor.requests ⟨buffer⟩).filter isOperation = buffer := by
  have hrequests : GrpcTransactor.requests ⟨buffer⟩ =
      ⟨0, .header { transName := "abc", transType := 0 }⟩ :: (buffer ++ [⟨5, .trailer⟩]) := rfl
  rw [hrequests, List.filter_cons_of_neg Bool.false_ne_true, List.filter_append,
    List.filter_eq_self.mpr h]
  exact List.append_nil _

/-- What the streams carry is what the buffer flushes. -/
theorem carried_eq (calls : List TransactorCall) :
    (SSClient.beginTxn.run calls).streams.flatMap (List.filter isOperation) =
      (flushes [] (calls.map TransactorCall.outbox)).flatten := by
  have hoperations := operations_of_flushes calls [] fun _ hr => absurd hr List.not_mem_nil
  have hstreams := streams_run calls SSClient.beginTxn
  rw [hstreams]
  have hcarried : ∀ buffers : List (List CmdTransactionRequest),
      (∀ buffer ∈ buffers, ∀ r ∈ buffer, isOperation r = true) →
        (buffers.map fun buffer => GrpcTransactor.requests ⟨buffer⟩).flatMap
          (List.filter isOperation) = buffers.flatten := by
    intro buffers h
    induction buffers with
    | nil => rfl
    | cons buffer buffers ih =>
        rw [List.map_cons, List.flatMap_cons, List.flatten_cons,
          filter_requests (h buffer (List.mem_cons_self ..)),
          ih fun b hb => h b (List.mem_cons_of_mem _ hb)]
  exact hcarried _ hoperations

theorem endedOnce_iff (calls : List TransactorCall) :
    EndedOnce calls ↔ FlushedOnce (calls.map TransactorCall.outbox) := by
  have hflush : ∀ c : TransactorCall, isFlush c.outbox = isEnd c := by
    intro c
    rcases run_of_outbox SSClient.beginTxn c with ⟨r, hend, houtbox, -⟩ | ⟨hend, houtbox, -⟩
    · rw [houtbox, hend]
      rfl
    · rw [houtbox, hend]
      rfl
  have hcount : ∀ cs : List TransactorCall,
      (cs.map TransactorCall.outbox).countP isFlush = cs.countP isEnd := by
    intro cs
    rw [List.countP_map]
    exact List.countP_congr fun c _ => by rw [Function.comp_apply, hflush]
  constructor
  · intro h before a after heq
    obtain ⟨before', rest, rfl, -, hrest⟩ := List.map_eq_append_iff.mp heq
    obtain ⟨c, after', rfl, hc, rfl⟩ := List.map_eq_cons_iff.mp hrest
    rw [hcount]
    refine h before' c after' rfl ?_
    rw [← hflush, hc]
    rfl
  · rintro h before c after rfl hend
    rcases run_of_outbox SSClient.beginTxn c with ⟨r, -, houtbox, -⟩ | ⟨hend', -⟩
    · rw [← hcount]
      refine h (before.map TransactorCall.outbox) r (after.map TransactorCall.outbox) ?_
      rw [List.map_append, List.map_cons, houtbox]
    · rw [hend] at hend'
      cases hend'

/-- **Each operation is sent once exactly when** no operation has two `End` calls behind it. -/
theorem sentOnce_iff (calls : List TransactorCall) : SentOnce calls ↔ EndedOnce calls := by
  rw [endedOnce_iff, ← flatten_flushes_iff, ← carried_eq]
  constructor
  · intro h
    exact h.once
  · intro h
    refine ⟨?_, h⟩
    intro stream hstream
    rw [streams_run] at hstream
    obtain ⟨buffer, hbuffer, rfl⟩ := List.mem_map.mp hstream
    exact ⟨_, buffer, _, rfl, rfl, rfl, operations_of_flushes calls []
      (fun _ hr => absurd hr List.not_mem_nil) buffer hbuffer⟩

/-- The second `End` sends the insert again. -/
theorem insert_sent_twice :
    ((SSClient.beginTxn.run [.insert { securityName := "a" } [], .endTxn, .endTxn]).streams.flatMap
      (List.filter isOperation)).length = 2 ∧
    (bufferedOperations [.insert { securityName := "a" } [], .endTxn, .endTxn]).length = 1 ∧
    ¬ SentOnce [.insert { securityName := "a" } [], .endTxn, .endTxn] := by
  refine ⟨rfl, rfl, ?_⟩
  intro h
  have hlength := congrArg List.length h.once
  have htwo : ((SSClient.beginTxn.run
      [.insert { securityName := "a" } [], .endTxn, .endTxn]).streams.flatMap
        (List.filter isOperation)).length = 2 := rfl
  rw [htwo] at hlength
  cases hlength

end AuroraSizing.Transaction

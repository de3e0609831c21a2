import AuroraSizing.Transaction.Durability

/-!
# `MsgOnFailure` and all-or-nothing

A failing message rolls the connection back and is answered with
`MsgOnFailure`. The rollback reaches back to the last commit only, and the
trailer commits without ending the stream; a message or half-close that gRPC
delivers after the failure still runs on the connection. `failure_atomic_iff`
holds for every list of callbacks, so it covers both.
-/

namespace AuroraSizing.Transaction

open Foundation.Journal

/-! ## What one callback does to the open work, read off its input -/

/-- Some statement of the message changes a row. -/
def Executes (jdk : Jdk) (e : Event) : Prop := eventWrites jdk 0 0 e ≠ []

/-- A commit that goes through: a trailer's, or the one of the half-close. -/
def Commits : Event → Prop
  | (.onNext r, o) => transType r = .trailer ∧ o.commit = true
  | (.onCompleted, o) => o.commit = true
  | (.onError, _) => False

/-- A rollback that goes through: a failed message's, or a cancellation's. -/
def RollsBack (jdk : Jdk) : Event → Prop
  | (.onNext r, o) => verdict jdk r o = .failed ∧ o.rollback = true
  | (.onCompleted, _) => False
  | (.onError, o) => o.rollback = true

theorem eventEnding_commit_iff {jdk : Jdk} {e : Event} :
    eventEnding jdk e = .commit ↔ Commits e := by
  rcases e with ⟨cb, o⟩
  cases cb with
  | onNext r =>
      constructor
      · intro h
        cases hv : verdict jdk r o with
        | served =>
            simp only [eventEnding, hv, serveEnding] at h
            by_contra hn
            rw [if_neg (show ¬ (transType r = .trailer ∧ o.commit = true) from hn)] at h
            cases h
        | failed =>
            simp only [eventEnding, hv] at h
            split at h <;> cases h
        | escaped =>
            simp only [eventEnding, hv] at h
            cases h
      · rintro ⟨ht, hc⟩
        have hv : verdict jdk r o = .served := (verdict_trailer ht).mpr hc
        simp [eventEnding, hv, serveEnding, ht, hc]
  | onCompleted => simp [eventEnding, Commits]
  | onError =>
      simp only [eventEnding, Commits, iff_false]
      split <;> simp

theorem eventEnding_abort_iff {jdk : Jdk} {e : Event} :
    eventEnding jdk e = .abort ↔ RollsBack jdk e := by
  rcases e with ⟨cb, o⟩
  cases cb with
  | onNext r =>
      cases hv : verdict jdk r o with
      | served =>
          simp only [eventEnding, RollsBack, hv, serveEnding]
          split <;> simp
      | failed => simp [eventEnding, RollsBack, hv]
      | escaped => simp [eventEnding, RollsBack, hv]
  | onCompleted =>
      simp only [eventEnding, RollsBack, iff_false]
      split <;> simp
  | onError => simp [eventEnding, RollsBack]

theorem eventEnding_keep_iff {jdk : Jdk} {e : Event} :
    eventEnding jdk e = .keep ↔ ¬ Commits e ∧ ¬ RollsBack jdk e := by
  rw [← @eventEnding_commit_iff jdk, ← eventEnding_abort_iff]
  cases eventEnding jdk e <;> simp

/-- Whether a message changes a row does not depend on the ids it writes. -/
theorem eventWrites_ne_nil_iff (jdk : Jdk) (id : JLong) (k : ℕ) (e : Event) :
    eventWrites jdk id k e ≠ [] ↔ Executes jdk e := by
  rcases e with ⟨cb, o⟩
  cases cb with
  | onCompleted => simp [Executes, eventWrites]
  | onError => simp [Executes, eventWrites]
  | onNext r =>
      have hop : ∀ i, ((opStmt? jdk r i o.now).toList = []) ↔
          ((opStmt? jdk r 0 o.now).toList = []) := by
        intro i
        simp only [opStmt?]
        cases transType r <;> simp
      have hlog : ∀ i j, ((logStmt? r i j o.now).toList = []) ↔
          ((logStmt? r 0 0 o.now).toList = []) := by
        intro i j
        simp only [logStmt?]
        cases transType r <;> simp
      have hw : ∀ (s t : Option Stmt) (p : StmtOutcome), (s.toList = [] ↔ t.toList = []) →
          (stmtWrites s p = [] ↔ stmtWrites t p = []) := by
        intro s t p h
        unfold stmtWrites
        split
        · exact h
        · rfl
      simp only [Executes, eventWrites, messageWrites, ne_eq, List.append_eq_nil_iff]
      rw [hw _ _ _ (hop id)]
      split
      · rw [hw _ _ _ (hlog id k)]
      · rfl

/-- A trailer changes no row. -/
theorem not_commits_of_executes {jdk : Jdk} {e : Event} (h : Executes jdk e) : ¬ Commits e := by
  rcases e with ⟨cb, o⟩
  cases cb with
  | onNext r =>
      rintro ⟨ht, -⟩
      exact h (by simp [eventWrites, messageWrites, opStmt?, logStmt?, ht, stmtWrites])
  | onCompleted => exact absurd rfl h
  | onError => exact absurd rfl h

/-! ## Work that a later callback commits -/

/-- Some callback commits and no callback before it rolls back. -/
def ReachesCommit (jdk : Jdk) (es : List Event) : Prop :=
  ∃ mid c rest, es = mid ++ c :: rest ∧ Commits c ∧ ∀ m ∈ mid, ¬ RollsBack jdk m

/-- Some message changes a row, does not roll back itself, and a later callback
commits with no rollback in between. -/
def WorkCommitted (jdk : Jdk) (es : List Event) : Prop :=
  ∃ pre e post, es = pre ++ e :: post ∧ Executes jdk e ∧ ¬ RollsBack jdk e ∧
    ReachesCommit jdk post

theorem reachesCommit_nil (jdk : Jdk) : ¬ ReachesCommit jdk [] := by
  rintro ⟨mid, c, rest, h, -⟩
  simp at h

theorem reachesCommit_cons {jdk : Jdk} {e : Event} {es : List Event} :
    ReachesCommit jdk (e :: es) ↔ Commits e ∨ ¬ RollsBack jdk e ∧ ReachesCommit jdk es := by
  unfold ReachesCommit
  rw [exists_split_cons fun mid c _ => Commits c ∧ ∀ m ∈ mid, ¬ RollsBack jdk m]
  constructor
  · rintro (⟨hc, -⟩ | ⟨mid, c, rest, hes, hc, hmid⟩)
    · exact Or.inl hc
    · obtain ⟨he, hmid⟩ := List.forall_mem_cons.mp hmid
      exact Or.inr ⟨he, mid, c, rest, hes, hc, hmid⟩
  · rintro (hc | ⟨he, mid, c, rest, hes, hc, hmid⟩)
    · exact Or.inl ⟨hc, by simp⟩
    · exact Or.inr ⟨mid, c, rest, hes, hc, List.forall_mem_cons.mpr ⟨he, hmid⟩⟩

theorem workCommitted_cons {jdk : Jdk} {e : Event} {es : List Event} :
    WorkCommitted jdk (e :: es) ↔
      (Executes jdk e ∧ ¬ RollsBack jdk e ∧ ReachesCommit jdk es) ∨ WorkCommitted jdk es :=
  exists_split_cons (fun _ e post => Executes jdk e ∧ ¬ RollsBack jdk e ∧
    ReachesCommit jdk post) e es

theorem reaches_blocks (jdk : Jdk) (id : JLong) (es : List Event) (k : ℕ) :
    Reaches (blocks jdk id k es) ↔ ReachesCommit jdk es := by
  induction es generalizing k with
  | nil => simp [blocks, not_reaches_nil, reachesCommit_nil]
  | cons e es ih =>
      rw [blocks, reaches_cons, reachesCommit_cons, ih]
      simp only [eventBlock, eventEnding_commit_iff, eventEnding_keep_iff]
      tauto

/-- The blocks of a run leak exactly when its callbacks do. -/
theorem leaks_blocks (jdk : Jdk) (id : JLong) (es : List Event) (k : ℕ) :
    Leaks (blocks jdk id k es) ↔ WorkCommitted jdk es := by
  induction es generalizing k with
  | nil =>
      simp only [blocks, not_leaks_nil, false_iff]
      rintro ⟨pre, e, post, h, -⟩
      simp at h
  | cons e es ih =>
      rw [blocks, leaks_cons, workCommitted_cons, ih, reaches_blocks]
      simp only [eventBlock, eventEnding_commit_iff, eventEnding_keep_iff,
        eventWrites_ne_nil_iff]
      have hnot : Executes jdk e → ¬ Commits e := not_commits_of_executes
      tauto

theorem durable_known_eq_nil_iff (jdk : Jdk) (id : JLong) (es : List Event) :
    ((Stream.known id).run jdk es).durable = [] ↔ ¬ WorkCommitted jdk es := by
  have hknown : (Stream.known id).observer.txnId = some id := rfl
  rw [Stream.durable, Stream.session_run jdk es (Stream.known id) hknown,
    show (Stream.known id).session = Session.fresh from rfl, durable_eq_nil_iff,
    leaks_blocks]

/-! ## `MsgOnFailure` -/

/-- `MsgOnFailure` promises that nothing of the stream is durable. -/
def FailureLeavesNothing (jdk : Jdk) (resultSet : Option JLong) (es : List Event) : Prop :=
  ∀ ack txnId, .msgOnFailure ack txnId ∈ ((Stream.start resultSet).run jdk es).sent →
    ((Stream.start resultSet).run jdk es).durable = []

/-- The id is read and fits a response, and the first message that is not
served fails with a `SQLException`, which a proxy lets `onError` answer. -/
def FirstFails (jdk : Jdk) (resultSet : Option JLong) (es : List Event) : Prop :=
  ∃ id, Opens resultSet es id ∧ (intOf id).isSome = true ∧
    ∃ pre r o post, es = pre ++ (.onNext r, o) :: post ∧
      (∀ d ∈ pre, servedEvent jdk d = true) ∧ verdict jdk r o = .failed ∧
        failureAnswered jdk o = true

theorem failure_sent_iff {jdk : Jdk} {resultSet : Option JLong} {es : List Event} :
    (∃ ack txnId, .msgOnFailure ack txnId ∈ ((Stream.start resultSet).run jdk es).sent) ↔
      FirstFails jdk resultSet es := by
  constructor
  · rintro ⟨ack, txnId, h⟩
    obtain ⟨id, hopens, hans⟩ := mem_sent_iff.mp h
    obtain ⟨pre, ⟨cb, o⟩, post, i, hes, hpre, hun, hcancel, hi, hm⟩ := answer_eq_some.mp hans
    refine ⟨id, hopens, by rw [hi]; rfl, ?_⟩
    cases cb with
    | onCompleted =>
        simp only [eventResponse] at hm
        split at hm <;> simp at hm
    | onError => exact absurd rfl hcancel
    | onNext r =>
        simp only [eventResponse] at hm
        split at hm
        · rename_i hv
          exact ⟨pre, r, o, post, hes, hpre, hv.1, hv.2⟩
        · cases hm
  · rintro ⟨id, hopens, hfit, pre, r, o, post, hes, hpre, hv, hanswered⟩
    obtain ⟨i, hi⟩ := Option.isSome_iff_exists.mp hfit
    exact ⟨1, i, mem_sent_iff.mpr ⟨id, hopens, answer_eq_some.mpr
      ⟨pre, (.onNext r, o), post, i, hes, hpre, by simp [servedEvent, hv], by simp, hi,
        by simp [eventResponse, hv, hanswered]⟩⟩⟩

/-- **`MsgOnFailure` is all-or-nothing except after a commit.** -/
theorem failure_atomic_iff (jdk : Jdk) (resultSet : Option JLong) (es : List Event) :
    FailureLeavesNothing jdk resultSet es ↔
      ¬ (FirstFails jdk resultSet es ∧ WorkCommitted jdk es) := by
  constructor
  · rintro h ⟨hfails, hwork⟩
    obtain ⟨ack, txnId, hsent⟩ := failure_sent_iff.mpr hfails
    have hnil := h ack txnId hsent
    rcases hfails with ⟨id, hopens, -⟩
    rw [Stream.run_start jdk hopens, durable_known_eq_nil_iff] at hnil
    exact hnil hwork
  · intro h ack txnId hsent
    obtain ⟨id, hopens, hfails⟩ := failure_sent_iff.mp ⟨ack, txnId, hsent⟩
    rw [Stream.run_start jdk hopens, durable_known_eq_nil_iff]
    exact fun hwork => h ⟨⟨id, hopens, hfails⟩, hwork⟩

/-- An insert and its trailer, then the same insert again, which the unique
indexes refuse. -/
def insertTwice : List Event :=
  let insert : CmdTransactionRequest :=
    ⟨1, .insert { metadata := { securityName := "testSec-10"
                                timeUpdate := "1970-01-01 00:00:00" } }⟩
  [(.onNext ⟨0, .header { transName := "abc" }⟩, {}),
   (.onNext insert, {}),
   (.onNext ⟨5, .trailer⟩, {}),
   (.onNext insert, { op := { rows := 0, raised := true } })]

/-- `insertTwice` is answered with `MsgOnFailure`, and its header row, its first
insert and the part row of it stay in the database. -/
theorem trailer_survives_failure :
    .msgOnFailure 1 7 ∈ ((Stream.start (some 7)).run Jdk.ascii insertTwice).sent ∧
      ((Stream.start (some 7)).run Jdk.ascii insertTwice).durable.length = 3 ∧
      ¬ FailureLeavesNothing Jdk.ascii (some 7) insertTwice := by
  have hsent : .msgOnFailure 1 7 ∈
      ((Stream.start (some 7)).run Jdk.ascii insertTwice).sent := by decide
  have hlen : ((Stream.start (some 7)).run Jdk.ascii insertTwice).durable.length = 3 := by
    decide
  refine ⟨hsent, hlen, ?_⟩
  intro h
  rw [h 1 7 hsent] at hlen
  cases hlen

end AuroraSizing.Transaction

import AuroraSizing.Foundation.System
import Mathlib.Data.List.MinMax
import Mathlib.Data.List.Nodup
import Mathlib.Order.Nat

/-!
# External transaction ids

Every transaction inserts a row of `txn_id_map`, then a row of
`tdms_trans_header_primary_2`, and the trigger `generate_txn_id` gives the first
row its `ext_txn_id`: the committed maximum plus one, tried up to a hundred times.
Any number of transactions run at once. A `SELECT` sees what is committed when it
runs; an `UPDATE` to a value an uncommitted row has waits for that transaction, and
raises if the value is then committed.

The maximum is read without a lock. What keeps the ids apart is that a number below
the next one is always refused, so that only one transaction can hold an
uncommitted id, and that id is the next one.
-/

namespace AuroraSizing.ExtTxnId

open Foundation.System

/-- A row of `txn_id_map`, less its `created_at`, which nothing reads. -/
structure TxnIdRow where
  txn_id : ℕ
  ext_txn_id : Option ℕ
deriving DecidableEq

/-- Where a transaction is. Its own row of `txn_id_map` has an `ext_txn_id` in
`returned` only. -/
inductive Phase where
  | absent
  /-- The row of `txn_id_map` is inserted. -/
  | inserted
  /-- The trigger, about to read the maximum for the `i`-th time. -/
  | selecting (i : ℕ)
  /-- About to write `varLastTxnId + 1`. -/
  | updating (i varLastTxnId : ℕ)
  /-- The `UPDATE` waits for another transaction. -/
  | blocked (i varLastTxnId holder : ℕ)
  /-- `RETURN NEW`. -/
  | returned (ext_txn_id : ℕ)
  /-- The loop is over and the trigger has not returned. -/
  | failed
  | ended
deriving DecidableEq

structure State where
  /-- The sequence of the `BIGSERIAL`. -/
  nextval : ℕ
  /-- The committed rows, in the order of their commits. -/
  txn_id_map : List TxnIdRow
  /-- By `txn_id`. -/
  phase : ℕ → Phase

inductive Event where
  | insertTxnId
  | insertHeader (txn : ℕ)
  | select (txn : ℕ)
  | update (txn : ℕ)
  /-- The transaction the `UPDATE` waits for has ended. -/
  | resume (txn : ℕ)
  /-- A statement of the block raises for a reason of its own. -/
  | raise (txn : ℕ)
  | commit (txn : ℕ)
  | abort (txn : ℕ)
deriving DecidableEq

def bigint : ℕ := 2 ^ 63

/-- `EXCEPTION WHEN OTHERS THEN END`, at the end of the `i`-th turn of the loop. -/
def retry (i : ℕ) : Phase :=
  if i < 100 then .selecting (i + 1) else .failed

/-- A transaction that has begun and not ended. -/
def Phase.live : Phase → Bool
  | .absent | .ended => false
  | .inserted | .selecting _ | .updating _ _ | .blocked _ _ _ | .returned _ | .failed => true

namespace State

def start : State where
  nextval := 1
  txn_id_map := []
  phase _ := .absent

def setPhase (s : State) (txn : ℕ) (p : Phase) : State :=
  { s with phase := Function.update s.phase txn p }

/-- `COALESCE(max(ext_txn_id), 0)`; the reader's own row has none. -/
def maxExtTxnId (s : State) : ℕ :=
  (s.txn_id_map.filterMap TxnIdRow.ext_txn_id).foldr max 0

/-- The transaction whose uncommitted row has this `ext_txn_id`. -/
def holder? (s : State) (ext_txn_id : ℕ) : Option ℕ :=
  (List.range s.nextval).find? fun txn => s.phase txn = .returned ext_txn_id

/-- `UPDATE txn_id_map set ext_txn_id = varLastTxnId + 1`, on the transaction's own row. -/
def updated (s : State) (i varLastTxnId : ℕ) : Phase :=
  if varLastTxnId + 1 < bigint then
    if some (varLastTxnId + 1) ∈ s.txn_id_map.map TxnIdRow.ext_txn_id then retry i
    else
      match s.holder? (varLastTxnId + 1) with
      | some holder => .blocked i varLastTxnId holder
      | none => .returned (varLastTxnId + 1)
  else retry i

def step (s : State) : Event → Option State
  | .insertTxnId =>
      if s.nextval < bigint then
        some { s.setPhase s.nextval .inserted with nextval := s.nextval + 1 }
      else none
  | .insertHeader txn =>
      match s.phase txn with
      | .inserted => some (s.setPhase txn (.selecting 1))
      | _ => none
  | .select txn =>
      match s.phase txn with
      | .selecting i => some (s.setPhase txn (.updating i s.maxExtTxnId))
      | _ => none
  | .update txn =>
      match s.phase txn with
      | .updating i v => some (s.setPhase txn (s.updated i v))
      | _ => none
  | .resume txn =>
      match s.phase txn with
      | .blocked i v holder =>
          if (s.phase holder).live then none else some (s.setPhase txn (s.updated i v))
      | _ => none
  | .raise txn =>
      match s.phase txn with
      | .selecting i | .updating i _ | .blocked i _ _ => some (s.setPhase txn (retry i))
      | _ => none
  | .commit txn =>
      match s.phase txn with
      | .returned ext_txn_id =>
          some { s.setPhase txn .ended with
            txn_id_map := s.txn_id_map ++ [⟨txn, some ext_txn_id⟩] }
      -- the statement has failed, and the commit of a failed transaction is a rollback
      | .failed => some (s.setPhase txn .ended)
      | _ => none
  | .abort txn =>
      if (s.phase txn).live then some (s.setPhase txn .ended) else none

@[simp] theorem setPhase_txn_id_map (s : State) (txn : ℕ) (p : Phase) :
    (s.setPhase txn p).txn_id_map = s.txn_id_map := rfl

@[simp] theorem setPhase_nextval (s : State) (txn : ℕ) (p : Phase) :
    (s.setPhase txn p).nextval = s.nextval := rfl

theorem setPhase_phase (s : State) (txn t : ℕ) (p : Phase) :
    (s.setPhase txn p).phase t = if t = txn then p else s.phase t :=
  Function.update_apply _ _ _ _

end State

/-- The maximum a transaction has read and not yet used. -/
def Phase.read? : Phase → Option ℕ
  | .updating _ v | .blocked _ v _ => some v
  | .absent | .inserted | .selecting _ | .returned _ | .failed | .ended => none

theorem read?_retry (i : ℕ) : (retry i).read? = none := by
  unfold retry
  split <;> rfl

theorem retry_ne_returned (i e : ℕ) : retry i ≠ .returned e := by
  unfold retry
  split <;> exact Phase.noConfusion

/-- The committed ids are those of a counter, and whoever holds an uncommitted one
holds the counter's next value, alone. -/
structure Consistent (s : State) : Prop where
  numbered : s.txn_id_map.map TxnIdRow.ext_txn_id =
    (List.range' 1 s.txn_id_map.length).map some
  nodup : (s.txn_id_map.map TxnIdRow.txn_id).Nodup
  ended : ∀ r ∈ s.txn_id_map, s.phase r.txn_id = .ended
  absent : ∀ txn, s.nextval ≤ txn → s.phase txn = .absent
  read_le : ∀ txn v, (s.phase txn).read? = some v → v ≤ s.txn_id_map.length
  returned_eq : ∀ txn e, s.phase txn = .returned e → e = s.txn_id_map.length + 1
  returned_unique : ∀ txn txn' e e',
    s.phase txn = .returned e → s.phase txn' = .returned e' → txn = txn'

theorem consistent_start : Consistent State.start where
  numbered := rfl
  nodup := List.nodup_nil
  ended r hr := absurd hr List.not_mem_nil
  absent _ _ := rfl
  read_le _ _ h := by cases h
  returned_eq _ _ h := by cases h
  returned_unique _ _ _ _ h := by cases h

namespace Consistent

variable {s : State}

theorem mem_ext (hs : Consistent s) (e : ℕ) :
    some e ∈ s.txn_id_map.map TxnIdRow.ext_txn_id ↔ 1 ≤ e ∧ e ≤ s.txn_id_map.length := by
  rw [hs.numbered, List.mem_map_of_injective (Option.some_injective ℕ), List.mem_range'_1]
  omega

theorem maxExtTxnId_le (hs : Consistent s) : s.maxExtTxnId ≤ s.txn_id_map.length := by
  refine List.max_le_of_forall_le (s.txn_id_map.filterMap TxnIdRow.ext_txn_id) _ ?_
  intro e he
  rcases List.mem_filterMap.mp he with ⟨r, hr, hext⟩
  have hmem : some e ∈ s.txn_id_map.map TxnIdRow.ext_txn_id :=
    List.mem_map.mpr ⟨r, hr, hext⟩
  exact ((hs.mem_ext e).mp hmem).2

/-- A transaction that has begun has a `txn_id` the sequence has left behind. -/
theorem lt_nextval (hs : Consistent s) {txn : ℕ} (h : s.phase txn ≠ .absent) :
    txn < s.nextval := by
  by_contra hle
  exact h (hs.absent txn (Nat.le_of_not_lt hle))

/-- A live transaction goes on, and holds an id only if it is the next one and free. -/
theorem setPhase (hs : Consistent s) {txn : ℕ} {p : Phase} (hlive : (s.phase txn).live = true)
    (hread : ∀ v, p.read? = some v → v ≤ s.txn_id_map.length)
    (hreturned : ∀ e, p = .returned e → e = s.txn_id_map.length + 1 ∧
      ∀ t e', s.phase t = .returned e' → t = txn) : Consistent (s.setPhase txn p) where
  numbered := hs.numbered
  nodup := hs.nodup
  ended r hr := by
    have hended := hs.ended r hr
    have hne : r.txn_id ≠ txn := by
      intro heq
      rw [heq] at hended
      rw [hended] at hlive
      cases hlive
    rw [State.setPhase_phase, if_neg hne]
    exact hended
  absent t ht := by
    have habsent := hs.absent t ht
    have hne : t ≠ txn := by
      intro heq
      rw [← heq, habsent] at hlive
      cases hlive
    rw [State.setPhase_phase, if_neg hne]
    exact habsent
  read_le t v h := by
    rw [State.setPhase_phase] at h
    split at h
    · exact hread v h
    · exact hs.read_le t v h
  returned_eq t e h := by
    rw [State.setPhase_phase] at h
    split at h
    · exact (hreturned e h).1
    · exact hs.returned_eq t e h
  returned_unique t t' e e' h h' := by
    rw [State.setPhase_phase] at h h'
    split at h <;> split at h'
    · rename_i ht ht'
      exact ht.trans ht'.symm
    · rename_i ht _
      exact ht.trans ((hreturned e h).2 t' e' h').symm
    · rename_i _ ht'
      exact ((hreturned e' h').2 t e h).trans ht'.symm
    · exact hs.returned_unique t t' e e' h h'

/-- **A value the `UPDATE` writes is the next one, and nobody else's.** Below it every
value is committed and refused; one that is held makes the `UPDATE` wait. -/
theorem of_updated (hs : Consistent s) {i v e : ℕ} (hv : v ≤ s.txn_id_map.length)
    (h : s.updated i v = .returned e) :
    e = s.txn_id_map.length + 1 ∧ ∀ txn e', s.phase txn ≠ .returned e' := by
  unfold State.updated at h
  split at h
  · split at h
    · exact absurd h (retry_ne_returned i e)
    · rename_i huncommitted
      split at h
      · cases h
      · rename_i hholder
        cases h
        rw [hs.mem_ext] at huncommitted
        have hnext : v + 1 = s.txn_id_map.length + 1 := by omega
        refine ⟨hnext, ?_⟩
        intro txn e' hreturned
        have heq : e' = v + 1 := (hs.returned_eq txn e' hreturned).trans hnext.symm
        have hlt : txn < s.nextval := by
          apply hs.lt_nextval
          rw [hreturned]
          exact Phase.noConfusion
        have hnone := List.find?_eq_none.mp hholder txn (List.mem_range.mpr hlt)
        rw [hreturned, heq] at hnone
        exact hnone (decide_eq_true rfl)
  · exact absurd h (retry_ne_returned i e)

theorem read?_updated {i v w : ℕ} (h : (s.updated i v).read? = some w) : w = v := by
  unfold State.updated at h
  split at h
  · split at h
    · rw [read?_retry] at h
      cases h
    · split at h
      · exact (Option.some.inj h).symm
      · cases h
  · rw [read?_retry] at h
    cases h

/-- An `UPDATE`, whether it runs for the first time or after a wait. -/
theorem update (hs : Consistent s) {txn i v : ℕ} (hlive : (s.phase txn).live = true)
    (hread : (s.phase txn).read? = some v) : Consistent (s.setPhase txn (s.updated i v)) := by
  have hv := hs.read_le txn v hread
  apply hs.setPhase hlive
  · intro w hw
    rw [read?_updated hw]
    exact hv
  · intro e he
    rcases hs.of_updated hv he with ⟨hnext, hfree⟩
    exact ⟨hnext, fun t e' ht => absurd ht (hfree t e')⟩

/-- The phases without an id and without a maximum. -/
theorem setPhase_plain (hs : Consistent s) {txn : ℕ} {p : Phase}
    (hlive : (s.phase txn).live = true) (hread : p.read? = none)
    (hreturned : ∀ e, p ≠ .returned e) : Consistent (s.setPhase txn p) := by
  apply hs.setPhase hlive
  · intro v hv
    rw [hread] at hv
    cases hv
  · intro e he
    exact absurd he (hreturned e)

theorem insertTxnId (hs : Consistent s) :
    Consistent { s.setPhase s.nextval .inserted with nextval := s.nextval + 1 } where
  numbered := hs.numbered
  nodup := hs.nodup
  ended r hr := by
    have hended := hs.ended r hr
    have hne : r.txn_id ≠ s.nextval := by
      intro heq
      rw [hs.absent r.txn_id (Nat.le_of_eq heq.symm)] at hended
      cases hended
    change (s.setPhase s.nextval .inserted).phase r.txn_id = .ended
    rw [State.setPhase_phase, if_neg hne]
    exact hended
  absent t ht := by
    have hne : t ≠ s.nextval := Nat.ne_of_gt ht
    change (s.setPhase s.nextval .inserted).phase t = .absent
    rw [State.setPhase_phase, if_neg hne]
    exact hs.absent t (Nat.le_of_succ_le ht)
  read_le t v h := by
    change ((s.setPhase s.nextval .inserted).phase t).read? = some v at h
    rw [State.setPhase_phase] at h
    split at h
    · cases h
    · exact hs.read_le t v h
  returned_eq t e h := by
    change (s.setPhase s.nextval .inserted).phase t = .returned e at h
    rw [State.setPhase_phase] at h
    split at h
    · cases h
    · exact hs.returned_eq t e h
  returned_unique t t' e e' h h' := by
    change (s.setPhase s.nextval .inserted).phase t = .returned e at h
    change (s.setPhase s.nextval .inserted).phase t' = .returned e' at h'
    rw [State.setPhase_phase] at h h'
    split at h <;> split at h'
    · cases h
    · cases h
    · cases h'
    · exact hs.returned_unique t t' e e' h h'

/-- The commit of the only holder makes its id the last of the counter. -/
theorem commit (hs : Consistent s) {txn e : ℕ} (h : s.phase txn = .returned e) :
    Consistent { s.setPhase txn .ended with
      txn_id_map := s.txn_id_map ++ [⟨txn, some e⟩] } := by
  have hlive : (s.phase txn).live = true := by rw [h]; rfl
  have hended : Consistent (s.setPhase txn .ended) :=
    hs.setPhase_plain hlive rfl (fun _ => Phase.noConfusion)
  have hnone : ∀ t e', (s.setPhase txn .ended).phase t ≠ .returned e' := by
    intro t e' ht
    rw [State.setPhase_phase] at ht
    split at ht
    · cases ht
    · rename_i hne
      exact hne (hs.returned_unique t txn e' e ht h)
  refine ⟨?_, ?_, ?_, hended.absent, ?_, ?_, ?_⟩
  · rw [List.map_append, hs.numbered, List.length_append, List.length_singleton,
      List.range'_1_concat, List.map_append, List.map_singleton, List.map_singleton]
    rw [hs.returned_eq txn e h, Nat.add_comm 1]
  · rw [List.map_append, List.map_singleton]
    apply hs.nodup.append (List.nodup_singleton txn)
    intro t ht ht'
    rcases List.mem_map.mp ht with ⟨r, hr, rfl⟩
    have hr' := hs.ended r hr
    rw [List.mem_singleton.mp ht', h] at hr'
    cases hr'
  · intro r hr
    rcases List.mem_append.mp hr with hr | hr
    · exact hended.ended r hr
    · rw [List.mem_singleton.mp hr]
      exact (State.setPhase_phase s txn txn .ended).trans (if_pos rfl)
  · intro t v ht
    have hle : v ≤ s.txn_id_map.length := hended.read_le t v ht
    rw [List.length_append]
    exact Nat.le_add_right_of_le hle
  · intro t e' ht
    exact absurd ht (hnone t e')
  · intro t t' e' e'' ht _
    exact absurd ht (hnone t e')

theorem step (hs : Consistent s) {s' : State} {e : Event} (h : s.step e = some s') :
    Consistent s' := by
  cases e with
  | insertTxnId =>
      simp only [State.step, Option.ite_none_right_eq_some, Option.some.injEq] at h
      rcases h with ⟨_, rfl⟩
      exact hs.insertTxnId
  | insertHeader txn =>
      simp only [State.step] at h
      split at h
      · rename_i hphase
        cases h
        exact hs.setPhase_plain (by rw [hphase]; rfl) rfl (fun _ => Phase.noConfusion)
      · cases h
  | select txn =>
      simp only [State.step] at h
      split at h
      · rename_i hphase
        cases h
        apply hs.setPhase (by rw [hphase]; rfl)
        · intro v hv
          cases hv
          exact hs.maxExtTxnId_le
        · intro e he
          cases he
      · cases h
  | update txn =>
      simp only [State.step] at h
      split at h
      · rename_i hphase
        cases h
        exact hs.update (by rw [hphase]; rfl) (by rw [hphase]; rfl)
      · cases h
  | resume txn =>
      simp only [State.step] at h
      split at h
      · rename_i hphase
        split at h
        · cases h
        · cases h
          exact hs.update (by rw [hphase]; rfl) (by rw [hphase]; rfl)
      · cases h
  | raise txn =>
      simp only [State.step] at h
      split at h
      case h_4 => cases h
      all_goals
        rename_i hphase
        cases h
        exact hs.setPhase_plain (by rw [hphase]; rfl) (read?_retry _) (retry_ne_returned _)
  | commit txn =>
      simp only [State.step] at h
      split at h
      · rename_i hphase
        cases h
        exact hs.commit hphase
      · rename_i hphase
        cases h
        exact hs.setPhase_plain (by rw [hphase]; rfl) rfl (fun _ => Phase.noConfusion)
      · cases h
  | abort txn =>
      simp only [State.step, Option.ite_none_right_eq_some, Option.some.injEq] at h
      rcases h with ⟨hlive, rfl⟩
      exact hs.setPhase_plain hlive rfl (fun _ => Phase.noConfusion)

theorem of_run {s t : State} {es : List Event} (hs : Consistent s)
    (hrun : run State.step s es = some t) : Consistent t :=
  run_preserves (fun _ _ _ hs h => hs.step h) hs hrun

end Consistent

/-- **The committed ids are `1, …, n`, in the order of the commits, each of one
transaction.** -/
theorem ext_txn_ids_of_run {s : State} {es : List Event}
    (hrun : run State.step State.start es = some s) :
    ∃ n, s.txn_id_map.map TxnIdRow.ext_txn_id = (List.range' 1 n).map some ∧
      (s.txn_id_map.map TxnIdRow.txn_id).Nodup := by
  have hs : Consistent s := consistent_start.of_run hrun
  exact ⟨s.txn_id_map.length, hs.numbered, hs.nodup⟩

/-- Two transactions read the same maximum; the second waits, is refused and tries again. -/
def race : List Event :=
  [.insertTxnId, .insertTxnId, .insertHeader 1, .insertHeader 2, .select 1, .select 2,
    .update 2, .update 1, .commit 2, .resume 1, .select 1, .update 1, .commit 1]

theorem ext_txn_ids_of_race :
    ∃ s, run State.step State.start race = some s ∧
      s.txn_id_map = [⟨2, some 1⟩, ⟨1, some 2⟩] ∧
      ∃ n, s.txn_id_map.map TxnIdRow.ext_txn_id = (List.range' 1 n).map some ∧
        (s.txn_id_map.map TxnIdRow.txn_id).Nodup := by
  have hrun : run State.step State.start race = some _ := rfl
  exact ⟨_, hrun, by decide, ext_txn_ids_of_run hrun⟩

end AuroraSizing.ExtTxnId

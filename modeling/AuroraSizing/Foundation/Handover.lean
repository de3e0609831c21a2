import AuroraSizing.Foundation.Journal

/-!
# Handing a session from one client to the next

A session of a transactional store that serves one client after another. A client's turn
is the list of what it did to the session; what it leaves open, the next client finds.
`isolated_iff` says when no client's commit makes another client's work durable: no
client that leaves work open is followed, before any abort, by a commit.
-/

namespace Foundation.Handover

open Journal

variable {α : Type*}

/-- A durable change, the turn that wrote it and the turn that committed it. -/
structure Change (α : Type*) where
  writer : ℕ
  committer : ℕ
  change : α
deriving DecidableEq

structure Ledger (α : Type*) where
  durable : List (Change α)
  pending : List (ℕ × α)
deriving DecidableEq

namespace Ledger

def fresh : Ledger α := ⟨[], []⟩

def step (turn : ℕ) (l : Ledger α) : Entry α → Ledger α
  | .write a => { l with pending := l.pending ++ [(turn, a)] }
  | .commit => ⟨l.durable ++ l.pending.map fun p => ⟨p.1, turn, p.2⟩, []⟩
  | .abort => { l with pending := [] }

def runTurn (turn : ℕ) (l : Ledger α) (t : List (Entry α)) : Ledger α := t.foldl (step turn) l

/-- The turns one after another, numbered from `k`. -/
def runTurns : ℕ → Ledger α → List (List (Entry α)) → Ledger α
  | _, l, [] => l
  | k, l, t :: ts => runTurns (k + 1) (runTurn k l t) ts

/-- Every durable change was committed in the turn that wrote it. -/
def Isolated (l : Ledger α) : Prop := ∀ c ∈ l.durable, c.writer = c.committer

@[simp] theorem runTurn_nil (k : ℕ) (l : Ledger α) : runTurn k l [] = l := rfl

@[simp] theorem runTurn_cons (k : ℕ) (l : Ledger α) (e : Entry α) (t : List (Entry α)) :
    runTurn k l (e :: t) = runTurn k (l.step k e) t := rfl

end Ledger

open Ledger

/-! ## What a turn does to the work it finds -/

/-- The first commit or abort of a turn, `keep` if there is none. -/
def firstEnding : List (Entry α) → Ending
  | [] => .keep
  | .write _ :: t => firstEnding t
  | .commit :: _ => .commit
  | .abort :: _ => .abort

/-- The turn's own work that is open when it ends. -/
def leftover (t : List (Entry α)) : List α := (replay Session.fresh t).pending

theorem pending_replay (s : Session α) (t : List (Entry α)) :
    (replay s t).pending =
      (if firstEnding t = .keep then s.pending else []) ++ leftover t := by
  induction t generalizing s with
  | nil => simp [firstEnding, leftover, Session.fresh]
  | cons e t ih =>
      unfold leftover
      rw [replay_cons, replay_cons, ih, ih (Session.fresh.step e)]
      cases e with
      | write a =>
          by_cases hkeep : firstEnding t = .keep
          · simp [Session.step, Session.fresh, firstEnding, hkeep]
          · simp [firstEnding, hkeep]
      | commit => simp [Session.step, Session.fresh, firstEnding]
      | abort => simp [Session.step, Session.fresh, firstEnding]

theorem leftover_append_write (t : List (Entry α)) (a : α) :
    leftover (t ++ [.write a]) = leftover t ++ [a] := by
  unfold leftover
  rw [replay_append]
  rfl

theorem leftover_append_commit (t : List (Entry α)) : leftover (t ++ [.commit]) = [] := by
  unfold leftover
  rw [replay_append]
  rfl

theorem leftover_append_abort (t : List (Entry α)) : leftover (t ++ [.abort]) = [] := by
  unfold leftover
  rw [replay_append]
  rfl

theorem pending_runTurn (k : ℕ) (l : Ledger α) (t : List (Entry α)) :
    (runTurn k l t).pending =
      (if firstEnding t = .keep then l.pending else []) ++ (leftover t).map (k, ·) := by
  induction t generalizing l with
  | nil => simp [firstEnding, leftover, Session.fresh]
  | cons e t ih =>
      have hleft : leftover (e :: t) =
          (if firstEnding t = .keep then (Session.fresh.step e).pending else []) ++ leftover t :=
        pending_replay (Session.fresh.step e) t
      rw [runTurn_cons, ih, hleft]
      cases e with
      | write a =>
          by_cases hkeep : firstEnding t = .keep
          · simp [Ledger.step, Session.step, Session.fresh, firstEnding, hkeep]
          · simp [firstEnding, hkeep]
      | commit => simp [Ledger.step, Session.step, firstEnding]
      | abort => simp [Ledger.step, Session.step, firstEnding]

/-- A turn breaks isolation exactly when its first ending is a commit over older work. -/
theorem isolated_runTurn_iff (k : ℕ) (l : Ledger α) (t : List (Entry α)) :
    (runTurn k l t).Isolated ↔
      l.Isolated ∧ (firstEnding t = .commit → ∀ p ∈ l.pending, p.1 = k) := by
  induction t generalizing l with
  | nil => simp [firstEnding]
  | cons e t ih =>
      rw [runTurn_cons, ih]
      cases e with
      | write a =>
          apply and_congr Iff.rfl
          simp only [Ledger.step, firstEnding, List.forall_mem_append, List.forall_mem_singleton,
            and_true]
      | commit =>
          simp only [Ledger.step, firstEnding, Ledger.Isolated, List.forall_mem_append,
            List.forall_mem_map, List.not_mem_nil, false_implies, implies_true, and_true,
            forall_const]
      | abort =>
          simp only [Ledger.step, firstEnding, Ledger.Isolated, List.not_mem_nil, false_implies,
            implies_true, and_true, reduceCtorEq]

/-! ## Turn after turn -/

/-- Some turn commits first of all, and none before it commits or aborts. -/
def Reached (ts : List (List (Entry α))) : Prop :=
  ∃ mid c rest, ts = mid ++ c :: rest ∧ firstEnding c = .commit ∧
    ∀ m ∈ mid, firstEnding m = .keep

/-- Some turn leaves work open that a later one commits. -/
def HandsOver (ts : List (List (Entry α))) : Prop :=
  ∃ pre t rest, ts = pre ++ t :: rest ∧ leftover t ≠ [] ∧ Reached rest

theorem reached_cons {t : List (Entry α)} {ts : List (List (Entry α))} :
    Reached (t :: ts) ↔ firstEnding t = .commit ∨ firstEnding t = .keep ∧ Reached ts := by
  unfold Reached
  rw [exists_split_cons fun (mid : List (List (Entry α))) c _ =>
    firstEnding c = .commit ∧ ∀ m ∈ mid, firstEnding m = .keep]
  simp only [List.forall_mem_cons, List.not_mem_nil, false_implies, implies_true, and_true,
    and_left_comm, exists_and_left]

theorem handsOver_cons {t : List (Entry α)} {ts : List (List (Entry α))} :
    HandsOver (t :: ts) ↔ (leftover t ≠ [] ∧ Reached ts) ∨ HandsOver ts :=
  exists_split_cons (fun _ t rest => leftover t ≠ [] ∧ Reached rest) t ts

theorem not_reached_nil : ¬ Reached ([] : List (List (Entry α))) := by
  rintro ⟨mid, c, rest, h, _⟩
  exact List.append_ne_nil_of_right_ne_nil mid (List.cons_ne_nil c rest) h.symm

theorem not_handsOver_nil : ¬ HandsOver ([] : List (List (Entry α))) := by
  rintro ⟨pre, t, rest, h, _⟩
  exact List.append_ne_nil_of_right_ne_nil pre (List.cons_ne_nil t rest) h.symm

/-- The run lemma: what is open from before the turns must not reach a commit either. -/
theorem isolated_runTurns_iff (ts : List (List (Entry α))) (k : ℕ) (l : Ledger α)
    (hpending : ∀ p ∈ l.pending, p.1 < k) :
    (runTurns k l ts).Isolated ↔
      l.Isolated ∧ ¬ (l.pending ≠ [] ∧ Reached ts) ∧ ¬ HandsOver ts := by
  induction ts generalizing k l with
  | nil => simp [runTurns, not_reached_nil, not_handsOver_nil]
  | cons t ts ih =>
      have hafter := pending_runTurn k l t
      have hlater : ∀ p ∈ (runTurn k l t).pending, p.1 < k + 1 := by
        intro p hp
        rw [hafter, List.mem_append, List.mem_map] at hp
        rcases hp with hold | ⟨a, _, rfl⟩
        · split at hold
          · exact Nat.lt_succ_of_lt (hpending p hold)
          · cases hold
        · exact Nat.lt_succ_self k
      have hold : (∀ p ∈ l.pending, p.1 = k) ↔ l.pending = [] := by
        constructor
        · intro h
          apply List.eq_nil_iff_forall_not_mem.mpr
          intro p hp
          exact absurd (h p hp) (Nat.ne_of_lt (hpending p hp))
        · intro h p hp
          rw [h] at hp
          cases hp
      have hnil : (runTurn k l t).pending = [] ↔
          (firstEnding t = .keep → l.pending = []) ∧ leftover t = [] := by
        rw [hafter, List.append_eq_nil_iff, List.map_eq_nil_iff]
        split <;> simp [*]
      rw [runTurns, ih _ _ hlater, isolated_runTurn_iff, hold, reached_cons, handsOver_cons, ne_eq,
        hnil]
      cases hend : firstEnding t with
      | keep =>
          simp only [reduceCtorEq, false_or, true_and, forall_const]
          grind
      | commit =>
          simp only [reduceCtorEq, true_or, and_true, forall_const]
          grind
      | abort =>
          simp only [reduceCtorEq, false_or, false_and, and_false]
          grind

/-- **Nobody commits another's work exactly when** no leftover work reaches a commit. -/
theorem isolated_iff (ts : List (List (Entry α))) :
    (runTurns 0 fresh ts).Isolated ↔ ¬ HandsOver ts := by
  have hfresh : ∀ p ∈ (fresh : Ledger α).pending, p.1 < 0 := by
    intro p hp
    cases hp
  rw [isolated_runTurns_iff ts 0 fresh hfresh]
  constructor
  · intro h
    exact h.2.2
  · intro h
    refine ⟨?_, ?_, h⟩
    · intro c hc
      cases hc
    · intro hpending
      exact hpending.1 rfl

end Foundation.Handover

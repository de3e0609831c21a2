import Mathlib.Data.List.Basic
import Mathlib.Tactic.Tauto

/-!
# Journals: what one session of a transactional store makes durable

A session writes, commits and aborts. A write joins the open work; a commit
makes the open work durable, in order; an abort drops it. `durable_eq_nil_iff`
characterizes, without running anything, the journals after which nothing is
durable: no written block is later committed with no abort in between.
-/

namespace Foundation.Journal

variable {α : Type*}

inductive Entry (α : Type*) where
  | write (a : α)
  | commit
  | abort
deriving DecidableEq

/-- A session: the work it has made durable and the work still open. -/
structure Session (α : Type*) where
  durable : List α
  pending : List α
deriving DecidableEq

def Session.fresh : Session α := ⟨[], []⟩

def Session.step (s : Session α) : Entry α → Session α
  | .write a => { s with pending := s.pending ++ [a] }
  | .commit => ⟨s.durable ++ s.pending, []⟩
  | .abort => { s with pending := [] }

def replay (s : Session α) (js : List (Entry α)) : Session α :=
  js.foldl Session.step s

@[simp] theorem replay_nil (s : Session α) : replay s [] = s := rfl

@[simp] theorem replay_cons (s : Session α) (j : Entry α) (js : List (Entry α)) :
    replay s (j :: js) = replay (s.step j) js := rfl

theorem replay_append (s : Session α) (js ks : List (Entry α)) :
    replay s (js ++ ks) = replay (replay s js) ks := by
  simp [replay, List.foldl_append]

theorem replay_writes (s : Session α) (as : List α) :
    replay s (as.map Entry.write) = { s with pending := s.pending ++ as } := by
  induction as generalizing s with
  | nil => simp
  | cons a as ih =>
      rw [List.map_cons, replay_cons, ih]
      simp [Session.step]

/-- Durable work is never taken back. -/
theorem durable_prefix_replay (js : List (Entry α)) (s : Session α) :
    s.durable <+: (replay s js).durable := by
  induction js generalizing s with
  | nil => exact List.prefix_rfl
  | cons j js ih =>
      refine List.IsPrefix.trans ?_ (ih (s.step j))
      cases j with
      | write a => exact List.prefix_rfl
      | commit => exact List.prefix_append _ _
      | abort => exact List.prefix_rfl

/-! ## Blocks

A client step writes some work and then leaves it open, commits it or aborts
it. -/

inductive Ending where
  | keep
  | commit
  | abort
deriving DecidableEq

structure Block (α : Type*) where
  writes : List α
  ending : Ending
deriving DecidableEq

def Ending.entries : Ending → List (Entry α)
  | .keep => []
  | .commit => [.commit]
  | .abort => [.abort]

def Block.entries (b : Block α) : List (Entry α) :=
  b.writes.map Entry.write ++ b.ending.entries

/-- The session after a list of blocks. -/
def runBlocks (s : Session α) (bs : List (Block α)) : Session α :=
  replay s (bs.flatMap Block.entries)

@[simp] theorem runBlocks_nil (s : Session α) : runBlocks s [] = s := rfl

theorem runBlocks_cons (s : Session α) (b : Block α) (bs : List (Block α)) :
    runBlocks s (b :: bs) = runBlocks (replay s b.entries) bs := by
  simp [runBlocks, replay_append]

theorem replay_block (s : Session α) (b : Block α) :
    replay s b.entries =
      match b.ending with
      | .keep => ⟨s.durable, s.pending ++ b.writes⟩
      | .commit => ⟨s.durable ++ (s.pending ++ b.writes), []⟩
      | .abort => ⟨s.durable, []⟩ := by
  rw [Block.entries, replay_append, replay_writes]
  cases b.ending <;> simp [Ending.entries, Session.step]

/-- Open work reaches a commit: some block commits and none before it aborts. -/
def Reaches (bs : List (Block α)) : Prop :=
  ∃ mid c post, bs = mid ++ c :: post ∧ c.ending = .commit ∧
    ∀ m ∈ mid, m.ending ≠ .abort

/-- Some written block is committed: by itself, or by a later block with no
abort in between. -/
def Leaks (bs : List (Block α)) : Prop :=
  ∃ pre b post, bs = pre ++ b :: post ∧ b.writes ≠ [] ∧
    (b.ending = .commit ∨ b.ending = .keep ∧ Reaches post)

theorem not_reaches_nil : ¬ Reaches ([] : List (Block α)) := by
  rintro ⟨mid, c, post, h, -⟩
  simp at h

theorem not_leaks_nil : ¬ Leaks ([] : List (Block α)) := by
  rintro ⟨pre, b, post, h, -⟩
  simp at h

/-- A way to split a list either splits off its head or splits its tail. -/
theorem exists_split_cons (P : List α → α → List α → Prop) (x : α) (xs : List α) :
    (∃ pre y post, x :: xs = pre ++ y :: post ∧ P pre y post) ↔
      P [] x xs ∨ ∃ pre y post, xs = pre ++ y :: post ∧ P (x :: pre) y post := by
  constructor
  · rintro ⟨pre, y, post, h, hp⟩
    cases pre with
    | nil =>
        obtain ⟨rfl, rfl⟩ := List.cons.inj h
        exact Or.inl hp
    | cons z pre =>
        obtain ⟨rfl, rfl⟩ := List.cons.inj h
        exact Or.inr ⟨pre, y, post, rfl, hp⟩
  · rintro (hp | ⟨pre, y, post, rfl, hp⟩)
    · exact ⟨[], x, xs, rfl, hp⟩
    · exact ⟨x :: pre, y, post, rfl, hp⟩

theorem reaches_cons {b : Block α} {bs : List (Block α)} :
    Reaches (b :: bs) ↔ b.ending = .commit ∨ b.ending = .keep ∧ Reaches bs := by
  unfold Reaches
  rw [exists_split_cons fun (mid : List (Block α)) (c : Block α) _ =>
    c.ending = .commit ∧ ∀ m ∈ mid, m.ending ≠ .abort]
  simp only [List.forall_mem_cons, List.not_mem_nil, false_implies, implies_true, and_true,
    and_left_comm, exists_and_left]
  -- a first block that aborts neither commits nor is passed over
  cases b.ending <;> simp

theorem leaks_cons {b : Block α} {bs : List (Block α)} :
    Leaks (b :: bs) ↔
      (b.writes ≠ [] ∧ (b.ending = .commit ∨ b.ending = .keep ∧ Reaches bs)) ∨ Leaks bs :=
  exists_split_cons (fun _ (b : Block α) post => b.writes ≠ [] ∧
    (b.ending = .commit ∨ b.ending = .keep ∧ Reaches post)) b bs

/-- The run lemma: from a session with nothing durable, something becomes
durable exactly when the open work reaches a commit or the blocks leak. -/
theorem durable_runBlocks_eq_nil (bs : List (Block α)) (pending : List α) :
    (runBlocks ⟨[], pending⟩ bs).durable = [] ↔
      ¬ (pending ≠ [] ∧ Reaches bs) ∧ ¬ Leaks bs := by
  induction bs generalizing pending with
  | nil => simp [not_reaches_nil, not_leaks_nil]
  | cons b bs ih =>
      rw [runBlocks_cons, replay_block, reaches_cons, leaks_cons]
      cases hend : b.ending with
      | keep =>
          simp only [ih, reduceCtorEq, false_or, true_and, ne_eq, List.append_eq_nil_iff]
          tauto
      | abort =>
          simp only [ih, reduceCtorEq, false_or, false_and, and_false, ne_eq,
            not_true_eq_false, not_false_eq_true, true_and]
      | commit =>
          by_cases hw : pending ++ b.writes = []
          · obtain ⟨rfl, hb⟩ := List.append_eq_nil_iff.mp hw
            simp [hb, ih]
          · have hdur : (runBlocks ⟨[] ++ (pending ++ b.writes), []⟩ bs).durable ≠ [] := by
              intro h0
              have hp : pending ++ b.writes <+: [] := h0 ▸ durable_prefix_replay
                (bs.flatMap Block.entries) ⟨[] ++ (pending ++ b.writes), []⟩
              exact hw (List.prefix_nil.mp hp)
            simp only [hdur, false_iff]
            rw [List.append_eq_nil_iff] at hw
            tauto

/-- **Nothing durable, read off the blocks.** -/
theorem durable_eq_nil_iff (bs : List (Block α)) :
    (runBlocks Session.fresh bs).durable = [] ↔ ¬ Leaks bs := by
  simpa [Session.fresh] using durable_runBlocks_eq_nil bs []

/-- Some written block and all after it keep the work open. -/
def StaysOpen (bs : List (Block α)) : Prop :=
  ∃ pre b post, bs = pre ++ b :: post ∧ b.writes ≠ [] ∧ b.ending = .keep ∧
    ∀ c ∈ post, c.ending = .keep

theorem staysOpen_cons {b : Block α} {bs : List (Block α)} :
    StaysOpen (b :: bs) ↔
      (b.writes ≠ [] ∧ b.ending = .keep ∧ ∀ c ∈ bs, c.ending = .keep) ∨ StaysOpen bs :=
  exists_split_cons (fun _ (b : Block α) post => b.writes ≠ [] ∧ b.ending = .keep ∧
    ∀ c ∈ post, c.ending = .keep) b bs

theorem not_staysOpen_nil : ¬ StaysOpen ([] : List (Block α)) := by
  rintro ⟨pre, b, post, h, -⟩
  simp at h

/-- **Work is open after the blocks exactly when** no block ends it. -/
theorem pending_runBlocks_ne_nil_iff (s : Session α) (bs : List (Block α)) :
    (runBlocks s bs).pending ≠ [] ↔
      (s.pending ≠ [] ∧ ∀ b ∈ bs, b.ending = .keep) ∨ StaysOpen bs := by
  induction bs generalizing s with
  | nil => simp [not_staysOpen_nil]
  | cons b bs ih =>
      rw [runBlocks_cons, ih, replay_block, staysOpen_cons, List.forall_mem_cons]
      cases hend : b.ending with
      | keep =>
          simp only [ne_eq, List.append_eq_nil_iff, true_and]
          tauto
      | commit => simp
      | abort => simp

/-- Blocks that never abort lose nothing: durable and open work together are
what was written, in order. -/
theorem runBlocks_no_abort (s : Session α) (bs : List (Block α))
    (h : ∀ b ∈ bs, b.ending ≠ .abort) :
    (runBlocks s bs).durable ++ (runBlocks s bs).pending =
      s.durable ++ s.pending ++ bs.flatMap Block.writes := by
  induction bs generalizing s with
  | nil => simp
  | cons b bs ih =>
      rw [runBlocks_cons, ih _ (fun c hc => h c (List.mem_cons_of_mem _ hc)), replay_block]
      have hb := h b List.mem_cons_self
      cases hend : b.ending with
      | keep => simp
      | commit => simp
      | abort => exact absurd hend hb

end Foundation.Journal

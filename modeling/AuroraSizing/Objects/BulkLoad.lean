import AuroraSizing.Foundation.System
import AuroraSizing.Objects.Reconciliation

/-!
# The bulk load

`load` splits the records evenly over `threadCount` tasks and leaves the rest to one more. Each
task starts a span of `StopWatch` under its number before it inserts, and stops it in the end;
the task for the rest calls `stop` in both places. There is no span of that name, so it ends in
a `NullPointerException` that `submit` keeps to itself, and its future is never completed.
-/

namespace AuroraSizing.BulkLoad

open Foundation.System Foundation.KeyedRows

/-- A `CompletableFuture`. -/
inductive Future where
  | pending
  | completed
  | exceptional
deriving DecidableEq, Repr

/-- Where a task is. -/
inductive Phase where
  | submitted
  /-- `insertRecs` is called. -/
  | entered
  | inserting
  /-- `insertRecs` has returned. -/
  | stopping
  | ended
deriving DecidableEq, Repr

structure Task where
  batchId : ℕ
  /-- Its first call is `StopWatch.start`, and not `StopWatch.stop`. -/
  starts : Bool
  /-- `numberOfRecsPerThread` -/
  recs : ℕ
  phase : Phase
  i : ℕ
  future : Future
deriving DecidableEq, Repr

/-- What the loop of `insertRecs` draws for the `i`-th record of a task. -/
structure Draws where
  typeId : ℕ → ℕ → JInt
  name : ℕ → ℕ → JInt
  currentTimeMillis : ℕ → ℕ → Timestamp

/-- `String.format("testSec-%d-%d", randIntStream.next(), i)` -/
def Draws.recName (draws : Draws) (batchId i : ℕ) : String :=
  "testSec-" ++ toString (draws.name batchId i).toInt ++ "-" ++ toString i

/-- The row of `INSERT_RECORDS`. -/
def record (jdk : Jdk) (draws : Draws) (objSize : JInt) (batchId i : ℕ) : ObjectRow where
  name := draws.recName batchId i
  typeId := draws.typeId batchId i
  lastTransaction := BitVec.ofNat 64 i
  timeUpdated := draws.currentTimeMillis batchId i
  updateCount := 0
  dateCreated := 0
  dbIdUpdated := 0
  versionInfo := 0
  sdbDiskMem := Reconciliation.getSizedByteArray 100
  mem := Reconciliation.getSizedByteArray objSize
  nameLower := jdk.toLowerCase (draws.recName batchId i)

structure State where
  /-- The numbers of `StopWatch.spans`. -/
  spans : List ℕ
  table : ObjectsTable
  tasks : List Task

inductive Event where
  /-- A thread of the pool takes the `k`-th task one statement further. -/
  | turn (k : ℕ)
  /-- The map of `StopWatch` is not synchronized and loses an entry. -/
  | forget (batchId : ℕ)
deriving DecidableEq, Repr

/-- One statement of a task, and of the `insertRecs` it calls. -/
def Task.step (jdk : Jdk) (draws : Draws) (objSize : JInt) (s : State) (t : Task) :
    Option (List ℕ × ObjectsTable × Task) :=
  match t.phase with
  | .submitted =>
      if t.starts then some (t.batchId :: s.spans, s.table, { t with phase := .entered })
      else if t.batchId ∈ s.spans then some (s.spans, s.table, { t with phase := .entered })
      else some (s.spans, s.table, { t with phase := .ended })
  | .entered =>
      -- `new byte[objSize]`
      if objSize.toInt < 0 then
        some (s.spans, s.table, { t with phase := .stopping, future := .exceptional })
      else some (s.spans, s.table, { t with phase := .inserting })
  | .inserting =>
      if t.i < t.recs then
        match ObjectsTable.ofRows (s.table.rows ++ [record jdk draws objSize t.batchId t.i]) with
        | some table => some (s.spans, table, { t with i := t.i + 1 })
        | none => some (s.spans, s.table, { t with phase := .stopping, future := .exceptional })
      else some (s.spans, s.table, { t with phase := .stopping, future := .completed })
  | .stopping => some (s.spans, s.table, { t with phase := .ended })
  | .ended => none

def State.step (jdk : Jdk) (draws : Draws) (objSize : JInt) (s : State) : Event → Option State
  | .turn k =>
      match s.tasks[k]? with
      | some t => (t.step jdk draws objSize s).map fun next =>
          ⟨next.1, next.2.1, s.tasks.set k next.2.2⟩
      | none => none
  | .forget batchId =>
      if batchId ∈ s.spans then some { s with spans := s.spans.erase batchId } else none

/-! ## The load -/

def numberOfRecsPerThread (recordCount threadCount : JInt) : ℕ :=
  (recordCount.toInt.tdiv threadCount.toInt).toNat

def remainingRecs (recordCount threadCount : JInt) : ℕ :=
  (recordCount.toInt.tmod threadCount.toInt).toNat

/-- The tasks of the loop. -/
def batches (recordCount threadCount : JInt) : List Task :=
  (List.range threadCount.toInt.toNat).map fun batchId =>
    ⟨batchId, true, numberOfRecsPerThread recordCount threadCount, .submitted, 0, .pending⟩

/-- The task for the remaining records. -/
def rest (recordCount threadCount : JInt) : List Task :=
  if 0 < remainingRecs recordCount threadCount then
    [⟨threadCount.toInt.toNat, false, remainingRecs recordCount threadCount, .submitted, 0,
      .pending⟩]
  else []

/-- The tasks of `load`; `none` is an exception. -/
def load (recordCount threadCount : JInt) : Option (List Task) :=
  -- `new CompletableFuture[threadCount + 1]`
  if threadCount.toInt < 1 ∨ (threadCount + 1).toInt < 0 then none
  else some (batches recordCount threadCount ++ rest recordCount threadCount)

/-- No task has a statement left. -/
def State.Ended (s : State) : Prop := ∀ t ∈ s.tasks, t.phase = .ended

/-- The future that `load` returns completes normally. -/
def State.Completed (s : State) : Prop := ∀ t ∈ s.tasks, t.future = .completed

/-- Every order of the tasks comes to an end, and there the future is completed and the table
has `recordCount` more rows. -/
def Completes (jdk : Jdk) (draws : Draws) (table : ObjectsTable)
    (recordCount threadCount objSize : JInt) : Prop :=
  ∃ tasks, load recordCount threadCount = some tasks ∧
    (∃ bound, ∀ events s, run (State.step jdk draws objSize) ⟨[], table, tasks⟩ events = some s →
      events.length ≤ bound) ∧
    ∀ events s, run (State.step jdk draws objSize) ⟨[], table, tasks⟩ events = some s →
      (∃ more s', run (State.step jdk draws objSize) s more = some s' ∧ s'.Ended) ∧
      (s.Ended → s.Completed ∧
        ∃ rows, s.table.rows = table.rows ++ rows ∧ rows.length = recordCount.toInt.toNat)

/-- The names the tasks will draw are apart from each other and from those in the table, in
lower case too. -/
structure NoCollision (jdk : Jdk) (draws : Draws) (table : ObjectsTable) (tasks : List Task) :
    Prop where
  new : ∀ t ∈ tasks, ∀ i < t.recs, ∀ r ∈ table.rows, r.name ≠ draws.recName t.batchId i ∧
    r.nameLower ≠ jdk.toLowerCase (draws.recName t.batchId i)
  apart : ∀ t ∈ tasks, ∀ i < t.recs, ∀ t' ∈ tasks, ∀ i' < t'.recs,
    jdk.toLowerCase (draws.recName t.batchId i) = jdk.toLowerCase (draws.recName t'.batchId i') →
      t.batchId = t'.batchId ∧ i = i'

/-! ## What a turn can do -/

section Turns

variable {jdk : Jdk} {draws : Draws} {objSize : JInt}

inductive Moves (jdk : Jdk) (draws : Draws) (objSize : JInt) (s : State) (t : Task) :
    List ℕ → ObjectsTable → Task → Prop
  | start (phase : t.phase = .submitted) (starts : t.starts = true) :
      Moves jdk draws objSize s t (t.batchId :: s.spans) s.table { t with phase := .entered }
  | stopFound (phase : t.phase = .submitted) (starts : t.starts = false)
      (found : t.batchId ∈ s.spans) :
      Moves jdk draws objSize s t s.spans s.table { t with phase := .entered }
  | stopNull (phase : t.phase = .submitted) (starts : t.starts = false)
      (missing : t.batchId ∉ s.spans) :
      Moves jdk draws objSize s t s.spans s.table { t with phase := .ended }
  | negativeSize (phase : t.phase = .entered) (negative : objSize.toInt < 0) :
      Moves jdk draws objSize s t s.spans s.table
        { t with phase := .stopping, future := .exceptional }
  | enter (phase : t.phase = .entered) (size : 0 ≤ objSize.toInt) :
      Moves jdk draws objSize s t s.spans s.table { t with phase := .inserting }
  | insert {table : ObjectsTable} (phase : t.phase = .inserting) (more : t.i < t.recs)
      (accepted : ObjectsTable.ofRows
        (s.table.rows ++ [record jdk draws objSize t.batchId t.i]) = some table) :
      Moves jdk draws objSize s t s.spans table { t with i := t.i + 1 }
  | reject (phase : t.phase = .inserting) (more : t.i < t.recs)
      (rejected : ObjectsTable.ofRows
        (s.table.rows ++ [record jdk draws objSize t.batchId t.i]) = none) :
      Moves jdk draws objSize s t s.spans s.table
        { t with phase := .stopping, future := .exceptional }
  | complete (phase : t.phase = .inserting) (done : t.recs ≤ t.i) :
      Moves jdk draws objSize s t s.spans s.table
        { t with phase := .stopping, future := .completed }
  | stop (phase : t.phase = .stopping) :
      Moves jdk draws objSize s t s.spans s.table { t with phase := .ended }

theorem moves_of_step {s : State} {t : Task} {next : List ℕ × ObjectsTable × Task}
    (h : t.step jdk draws objSize s = some next) :
    Moves jdk draws objSize s t next.1 next.2.1 next.2.2 := by
  unfold Task.step at h
  split at h
  case h_1 hphase =>
    split at h
    case isTrue hstarts =>
      cases h
      exact .start hphase hstarts
    case isFalse hstarts =>
      have hstarts : t.starts = false := by simpa using hstarts
      split at h
      case isTrue hfound =>
        cases h
        exact .stopFound hphase hstarts hfound
      case isFalse hmissing =>
        cases h
        exact .stopNull hphase hstarts hmissing
  case h_2 hphase =>
    split at h
    case isTrue hnegative =>
      cases h
      exact .negativeSize hphase hnegative
    case isFalse hsize =>
      cases h
      exact .enter hphase (Int.not_lt.mp hsize)
  case h_3 hphase =>
    split at h
    case isTrue hmore =>
      split at h
      case h_1 table haccepted =>
        cases h
        exact .insert hphase hmore haccepted
      case h_2 hrejected =>
        cases h
        exact .reject hphase hmore hrejected
    case isFalse hdone =>
      cases h
      exact .complete hphase (Nat.not_lt.mp hdone)
  case h_4 hphase =>
    cases h
    exact .stop hphase
  case h_5 => cases h

/-- A task that has not ended has a turn. -/
theorem step_of_not_ended (s : State) {t : Task} (h : t.phase ≠ .ended) :
    ∃ next, t.step jdk draws objSize s = some next := by
  unfold Task.step
  split
  case h_5 hended => exact absurd hended h
  all_goals repeat' split
  all_goals exact ⟨_, rfl⟩

/-! ## The end of a run -/

/-- An upper bound on the turns a task has left. -/
def Task.remaining (t : Task) : ℕ :=
  match t.phase with
  | .submitted => t.recs + 4
  | .entered => t.recs + 3
  | .inserting => t.recs - t.i + 2
  | .stopping => 1
  | .ended => 0

/-- A span is forgotten at most once for each time it is put. -/
def State.measure (s : State) : ℕ := (s.tasks.map fun t => 2 * t.remaining).sum + s.spans.length

theorem remaining_lt {s : State} {t t' : Task} {spans : List ℕ} {table : ObjectsTable}
    (h : Moves jdk draws objSize s t spans table t') :
    t'.remaining < t.remaining ∧ spans.length ≤ s.spans.length + 1 := by
  cases h with
  | start hphase | stopFound hphase | stopNull hphase | negativeSize hphase | reject hphase
  | complete hphase | stop hphase => simp [Task.remaining, hphase]
  | enter hphase | insert hphase =>
      simp only [Task.remaining, hphase]
      omega

/-- A turn changes one task. -/
theorem turn_eq_some {s s' : State} {k : ℕ} (h : s.step jdk draws objSize (.turn k) = some s') :
    ∃ before t after spans table t', s.tasks = before ++ t :: after ∧
      Moves jdk draws objSize s t spans table t' ∧
      s' = ⟨spans, table, before ++ t' :: after⟩ := by
  rw [State.step] at h
  split at h
  case h_1 t ht =>
    obtain ⟨next, hnext, rfl⟩ := Option.map_eq_some_iff.mp h
    obtain ⟨hk, rfl⟩ := List.getElem?_eq_some_iff.mp ht
    refine ⟨s.tasks.take k, s.tasks[k], s.tasks.drop (k + 1), next.1, next.2.1, next.2.2, ?_,
      moves_of_step hnext, ?_⟩
    · rw [← List.drop_eq_getElem_cons hk, List.take_append_drop]
    · rw [List.set_eq_take_append_cons_drop, if_pos hk]
  case h_2 => cases h

theorem measure_lt {s s' : State} {e : Event} (h : s.step jdk draws objSize e = some s') :
    s'.measure < s.measure := by
  cases e with
  | turn k =>
      obtain ⟨before, t, after, spans, table, t', htasks, hmoves, rfl⟩ := turn_eq_some h
      obtain ⟨hlt, hspans⟩ := remaining_lt hmoves
      simp only [State.measure, htasks, List.map_append, List.map_cons, List.sum_append,
        List.sum_cons]
      omega
  | forget batchId =>
      rw [State.step] at h
      split at h
      case isTrue hmem =>
        cases h
        have hlength := List.length_erase_of_mem hmem
        have hpos := List.length_pos_of_mem hmem
        simp only [State.measure]
        omega
      case isFalse => cases h

/-- Every run can go on to an end. -/
theorem exists_ended (s : State) :
    ∃ more s', run (State.step jdk draws objSize) s more = some s' ∧ s'.Ended := by
  induction hmeasure : s.measure using Nat.strongRecOn generalizing s with
  | _ n ih =>
      by_cases hended : s.Ended
      · exact ⟨[], s, rfl, hended⟩
      · obtain ⟨t, hmem, hphase⟩ : ∃ t ∈ s.tasks, t.phase ≠ .ended := by
          simpa [State.Ended] using hended
        obtain ⟨k, hk⟩ := List.getElem?_of_mem hmem
        obtain ⟨next, hnext⟩ : ∃ next, t.step jdk draws objSize s = some next :=
          step_of_not_ended s hphase
        have hstep : s.step jdk draws objSize (.turn k) =
            some ⟨next.1, next.2.1, s.tasks.set k next.2.2⟩ := by
          simp [State.step, hk, hnext]
        have hlt := measure_lt hstep
        obtain ⟨more, s', hrun, hs'⟩ := ih _ (hmeasure ▸ hlt) _ rfl
        exact ⟨.turn k :: more, s', run_cons_eq_some.mpr ⟨_, hstep, hrun⟩, hs'⟩

end Turns

/-! ## What every run keeps -/

/-- What a task was submitted with. -/
def Task.job (t : Task) : ℕ × Bool × ℕ := (t.batchId, t.starts, t.recs)

/-- `insertRecs` has inserted everything, or could not allocate its array. -/
def Task.Left (objSize : JInt) (t : Task) : Prop :=
  0 ≤ objSize.toInt ∧ t.i = t.recs ∧ t.future = .completed ∨
    objSize.toInt < 0 ∧ t.i = 0 ∧ t.future = .exceptional

/-- What holds of a task, by where it is. -/
def Task.Ok (objSize : JInt) (t : Task) : Prop :=
  match t.phase with
  | .submitted => t.i = 0 ∧ t.future = .pending
  | .entered => t.starts = true ∧ t.i = 0 ∧ t.future = .pending
  | .inserting => t.starts = true ∧ 0 ≤ objSize.toInt ∧ t.i ≤ t.recs ∧ t.future = .pending
  | .stopping => t.starts = true ∧ t.Left objSize
  | .ended => if t.starts then t.Left objSize else t.i = 0 ∧ t.future = .pending

/-- The rows a task has inserted. -/
def Task.inserted (jdk : Jdk) (draws : Draws) (objSize : JInt) (t : Task) : List ObjectRow :=
  (List.range t.i).map (record jdk draws objSize t.batchId)

structure Inv (jdk : Jdk) (draws : Draws) (objSize : JInt) (table₀ : ObjectsTable)
    (tasks₀ : List Task) (s : State) : Prop where
  jobs : s.tasks.map Task.job = tasks₀.map Task.job
  tasks : ∀ t ∈ s.tasks, t.Ok objSize
  /-- Only a task that calls `start` has put a span. -/
  spans : ∀ batchId ∈ s.spans, ∃ t ∈ s.tasks, t.batchId = batchId ∧ t.starts = true
  rows : ∃ rows, s.table.rows = table₀.rows ++ rows ∧
    rows.Perm (s.tasks.flatMap (Task.inserted jdk draws objSize))

section Invariant

variable {jdk : Jdk} {draws : Draws} {objSize : JInt} {table₀ : ObjectsTable} {tasks₀ : List Task}
  {s s' : State}

theorem Task.Ok.le {t : Task} (h : t.Ok objSize) : t.i ≤ t.recs := by
  unfold Task.Ok at h
  split at h
  case h_5 =>
    split at h
    · rcases h with ⟨-, hi, -⟩ | ⟨-, hi, -⟩ <;> omega
    · omega
  case h_4 => rcases h.2 with ⟨-, hi, -⟩ | ⟨-, hi, -⟩ <;> omega
  all_goals omega

/-- What a turn does, when no task finds a span it has not put and no insert is rejected. -/
theorem moves_effect {t t' : Task} {spans : List ℕ} {table : ObjectsTable}
    (h : Moves jdk draws objSize s t spans table t') (hok : t.Ok objSize)
    (hspan : t.starts = false → t.batchId ∉ s.spans)
    (haccept : t.i < t.recs →
      ObjectsTable.ofRows (s.table.rows ++ [record jdk draws objSize t.batchId t.i]) ≠ none) :
    t'.job = t.job ∧ t'.Ok objSize ∧
      (∀ batchId ∈ spans, batchId ∈ s.spans ∨ batchId = t.batchId ∧ t.starts = true) ∧
      (table.rows = s.table.rows ∧ t'.inserted jdk draws objSize = t.inserted jdk draws objSize ∨
        table.rows = s.table.rows ++ [record jdk draws objSize t.batchId t.i] ∧
          t'.inserted jdk draws objSize =
            t.inserted jdk draws objSize ++ [record jdk draws objSize t.batchId t.i]) := by
  cases h with
  | start hphase hstarts =>
      simp only [Task.Ok, hphase] at hok
      refine ⟨rfl, ⟨hstarts, hok⟩, ?_, .inl ⟨rfl, rfl⟩⟩
      intro batchId hmem
      rcases List.mem_cons.mp hmem with rfl | hmem
      · exact .inr ⟨rfl, hstarts⟩
      · exact .inl hmem
  | stopFound hphase hstarts hfound => exact absurd hfound (hspan hstarts)
  | stopNull hphase hstarts =>
      simp only [Task.Ok, hphase] at hok
      refine ⟨rfl, ?_, fun _ => .inl, .inl ⟨rfl, rfl⟩⟩
      simp only [Task.Ok, hstarts, Bool.false_eq_true, if_false]
      exact hok
  | negativeSize hphase hnegative =>
      simp only [Task.Ok, hphase] at hok
      exact ⟨rfl, ⟨hok.1, .inr ⟨hnegative, hok.2.1, rfl⟩⟩, fun _ => .inl, .inl ⟨rfl, rfl⟩⟩
  | enter hphase hsize =>
      simp only [Task.Ok, hphase] at hok
      refine ⟨rfl, ⟨hok.1, hsize, ?_, hok.2.2⟩, fun _ => .inl, .inl ⟨rfl, rfl⟩⟩
      rw [hok.2.1]
      exact Nat.zero_le _
  | insert hphase hmore haccepted =>
      simp only [Task.Ok, hphase] at hok
      refine ⟨rfl, ?_, fun _ => .inl, .inr ⟨?_, ?_⟩⟩
      · simp only [Task.Ok, hphase]
        exact ⟨hok.1, hok.2.1, hmore, hok.2.2.2⟩
      · unfold ObjectsTable.ofRows at haccepted
        split at haccepted
        · cases haccepted
          rfl
        · cases haccepted
      · simp [Task.inserted, List.range_succ]
  | reject hphase hmore hrejected => exact absurd hrejected (haccept hmore)
  | complete hphase hdone =>
      simp only [Task.Ok, hphase] at hok
      exact ⟨rfl, ⟨hok.1, .inl ⟨hok.2.1, Nat.le_antisymm hok.2.2.1 hdone, rfl⟩⟩, fun _ => .inl,
        .inl ⟨rfl, rfl⟩⟩
  | stop hphase =>
      simp only [Task.Ok, hphase] at hok
      refine ⟨rfl, ?_, fun _ => .inl, .inl ⟨rfl, rfl⟩⟩
      simp only [Task.Ok, hok.1, if_true]
      exact hok.2

/-- Two tasks of one number are one task. -/
theorem Inv.eq_of_batchId (h : Inv jdk draws objSize table₀ tasks₀ s)
    (hids : (tasks₀.map Task.batchId).Nodup) {t t' : Task} (ht : t ∈ s.tasks) (ht' : t' ∈ s.tasks)
    (hid : t.batchId = t'.batchId) : t = t' := by
  have hids' : (s.tasks.map Task.batchId).Nodup := by
    have hbatch : ∀ tasks : List Task,
        tasks.map Task.batchId = (tasks.map Task.job).map Prod.fst := by
      intro tasks
      rw [List.map_map]
      rfl
    rw [hbatch, h.jobs, ← hbatch]
    exact hids
  exact List.inj_on_of_nodup_map hids' ht ht' hid

/-- A task is one of those submitted. -/
theorem Inv.submitted (h : Inv jdk draws objSize table₀ tasks₀ s) {t : Task} (ht : t ∈ s.tasks) :
    ∃ t₀ ∈ tasks₀, t₀.job = t.job := by
  have hjob : t.job ∈ s.tasks.map Task.job := List.mem_map_of_mem ht
  rw [h.jobs] at hjob
  obtain ⟨t₀, ht₀, heq⟩ := List.mem_map.mp hjob
  exact ⟨t₀, ht₀, heq⟩

/-- The name a task inserts next is in no row. -/
theorem Inv.apart (h : Inv jdk draws objSize table₀ tasks₀ s)
    (hids : (tasks₀.map Task.batchId).Nodup) (hnames : NoCollision jdk draws table₀ tasks₀)
    {t : Task} (ht : t ∈ s.tasks) (hmore : t.i < t.recs) {r : ObjectRow} (hr : r ∈ s.table.rows) :
    r.name ≠ draws.recName t.batchId t.i ∧
      r.nameLower ≠ jdk.toLowerCase (draws.recName t.batchId t.i) := by
  obtain ⟨rows, hrows, hperm⟩ := h.rows
  obtain ⟨t₀, ht₀, hjob⟩ := h.submitted ht
  obtain ⟨hid, -, hrecs⟩ : t₀.batchId = t.batchId ∧ t₀.starts = t.starts ∧ t₀.recs = t.recs := by
    simpa [Task.job] using hjob
  rw [hrows, List.mem_append] at hr
  rcases hr with hr | hr
  · rw [← hid]
    exact hnames.new t₀ ht₀ t.i (by omega) r hr
  · obtain ⟨t', ht', hr⟩ := List.mem_flatMap.mp (hperm.subset hr)
    obtain ⟨i, hi, rfl⟩ := List.mem_map.mp hr
    have hi : i < t'.i := List.mem_range.mp hi
    have hle := (h.tasks t' ht').le
    obtain ⟨t₁, ht₁, hjob'⟩ := h.submitted ht'
    obtain ⟨hid', -, hrecs'⟩ :
        t₁.batchId = t'.batchId ∧ t₁.starts = t'.starts ∧ t₁.recs = t'.recs := by
      simpa [Task.job] using hjob'
    have hlower : jdk.toLowerCase (draws.recName t'.batchId i) ≠
        jdk.toLowerCase (draws.recName t.batchId t.i) := by
      intro heq
      rw [← hid, ← hid'] at heq
      obtain ⟨hsame, rfl⟩ :=
        hnames.apart t₁ ht₁ i (by omega) t₀ ht₀ t.i (by omega) heq
      -- the same task does not draw the same record twice
      obtain rfl := h.eq_of_batchId hids ht' ht (by rw [← hid', ← hid, hsame])
      exact absurd hi (lt_irrefl _)
    exact ⟨fun heq => hlower (congrArg jdk.toLowerCase heq), hlower⟩

/-- Names that do not collide are accepted. -/
theorem Inv.accepted (h : Inv jdk draws objSize table₀ tasks₀ s)
    (hids : (tasks₀.map Task.batchId).Nodup) (hnames : NoCollision jdk draws table₀ tasks₀)
    {t : Task} (ht : t ∈ s.tasks) (hmore : t.i < t.recs) :
    ObjectsTable.ofRows (s.table.rows ++ [record jdk draws objSize t.batchId t.i]) ≠ none := by
  have hunique : ∀ {κ : Type} (key : ObjectRow → κ), Unique key s.table.rows →
      (∀ r ∈ s.table.rows, key r ≠ key (record jdk draws objSize t.batchId t.i)) →
      Unique key (s.table.rows ++ [record jdk draws objSize t.batchId t.i]) := by
    intro κ key hkey hne
    rw [unique_middle, List.append_nil]
    exact ⟨hne, hkey⟩
  have htypeidName := hunique _ s.table.objectTypeidName
    fun r hr heq => (h.apart hids hnames ht hmore hr).2 (Prod.ext_iff.mp heq).2
  have hlowerName := hunique _ s.table.objectLowerName
    fun r hr => (h.apart hids hnames ht hmore hr).2
  have hname := hunique _ s.table.objectName fun r hr => (h.apart hids hnames ht hmore hr).1
  rw [ObjectsTable.ofRows, dif_pos ⟨htypeidName, hlowerName, hname⟩]
  exact Option.some_ne_none _

theorem Inv.step (hids : (tasks₀.map Task.batchId).Nodup)
    (hnames : NoCollision jdk draws table₀ tasks₀) {e : Event}
    (h : Inv jdk draws objSize table₀ tasks₀ s) (hstep : s.step jdk draws objSize e = some s') :
    Inv jdk draws objSize table₀ tasks₀ s' := by
  cases e with
  | forget batchId =>
      rw [State.step] at hstep
      split at hstep
      case isTrue =>
        cases hstep
        exact ⟨h.jobs, h.tasks, fun b hb => h.spans b (List.mem_of_mem_erase hb), h.rows⟩
      case isFalse => cases hstep
  | turn k =>
      obtain ⟨before, t, after, spans, table, t', htasks, hmoves, rfl⟩ := turn_eq_some hstep
      have ht : t ∈ s.tasks := by
        rw [htasks]
        simp
      obtain ⟨hjob, hok, hspans, hrows⟩ := moves_effect hmoves (h.tasks t ht) (by
        intro hstarts hmem
        obtain ⟨t₁, ht₁, hid, hstarts₁⟩ := h.spans _ hmem
        rw [h.eq_of_batchId hids ht₁ ht hid, hstarts] at hstarts₁
        cases hstarts₁) (h.accepted hids hnames ht)
      refine ⟨?_, ?_, ?_, ?_⟩
      · rw [← h.jobs, htasks]
        simp [hjob]
      · intro t₁ ht₁
        rcases mem_middle.mp ht₁ with rfl | ht₁
        · exact hok
        · refine h.tasks t₁ ?_
          rw [htasks]
          exact mem_middle.mpr (.inr ht₁)
      · intro batchId hmem
        have hid : t'.batchId = t.batchId ∧ t'.starts = t.starts :=
          ⟨congrArg Prod.fst hjob, congrArg (fun j => j.2.1) hjob⟩
        rcases hspans batchId hmem with hold | ⟨rfl, hstarts⟩
        · obtain ⟨t₁, ht₁, hid₁, hstarts₁⟩ := h.spans batchId hold
          rw [htasks] at ht₁
          rcases mem_middle.mp ht₁ with rfl | ht₁
          · exact ⟨t', by simp, hid.1.trans hid₁, hid.2.trans hstarts₁⟩
          · exact ⟨t₁, mem_middle.mpr (.inr ht₁), hid₁, hstarts₁⟩
        · exact ⟨t', by simp, hid.1, hid.2.trans hstarts⟩
      · obtain ⟨rows, hold, hperm⟩ := h.rows
        rw [htasks] at hperm
        simp only [List.flatMap_append, List.flatMap_cons] at hperm ⊢
        rcases hrows with ⟨hsame, hinserted⟩ | ⟨hmore, hinserted⟩
        · refine ⟨rows, by rw [hsame, hold], ?_⟩
          rw [hinserted]
          exact hperm
        · refine ⟨rows ++ [record jdk draws objSize t.batchId t.i], ?_, ?_⟩
          · rw [hmore, hold, List.append_assoc]
          · rw [hinserted]
            refine (hperm.append_right _).trans ?_
            simp only [List.append_assoc]
            exact (((List.perm_append_comm).append_left _)).append_left _

theorem inv_start (hfresh : ∀ t ∈ tasks₀, t.phase = .submitted ∧ t.i = 0 ∧ t.future = .pending) :
    Inv jdk draws objSize table₀ tasks₀ ⟨[], table₀, tasks₀⟩ := by
  refine ⟨rfl, ?_, ?_, [], (List.append_nil _).symm, ?_⟩
  · intro t ht
    obtain ⟨hphase, hi, hfuture⟩ := hfresh t ht
    simp only [Task.Ok, hphase]
    exact ⟨hi, hfuture⟩
  · intro batchId hmem
    cases hmem
  · rw [List.nil_perm, List.flatMap_eq_nil_iff]
    intro t ht
    rw [Task.inserted, (hfresh t ht).2.1]
    rfl

end Invariant

/-! ## The end of a load -/

section Load

variable {jdk : Jdk} {draws : Draws} {table : ObjectsTable} {recordCount threadCount objSize : JInt}

theorem load_eq_some_iff (hthreads : 1 ≤ threadCount.toInt) {tasks : List Task} :
    load recordCount threadCount = some tasks ↔
      threadCount.toInt < 2 ^ 31 - 1 ∧
        tasks = batches recordCount threadCount ++ rest recordCount threadCount := by
  have hlt : threadCount.toInt < 2 ^ 31 := BitVec.toInt_lt
  have hadd : (threadCount + 1).toInt = (threadCount.toInt + 1).bmod (2 ^ 32) :=
    BitVec.toInt_add threadCount 1
  have hnegative : (threadCount + 1).toInt < 0 ↔ ¬ threadCount.toInt < 2 ^ 31 - 1 := by
    rw [hadd, Int.bmod_def]
    omega
  rw [load]
  by_cases hfits : threadCount.toInt < 2 ^ 31 - 1
  · rw [if_neg (by omega), Option.some.injEq]
    exact ⟨fun h => ⟨hfits, h.symm⟩, fun h => h.2.symm⟩
  · rw [if_pos (.inr (hnegative.mpr hfits))]
    exact ⟨fun h => (Option.some_ne_none _ h.symm).elim, fun h => absurd h.1 hfits⟩

theorem mem_batches {t : Task} (h : t ∈ batches recordCount threadCount) :
    t.starts = true ∧ t.recs = numberOfRecsPerThread recordCount threadCount ∧
      t.batchId < threadCount.toInt.toNat ∧
      t.phase = .submitted ∧ t.i = 0 ∧ t.future = .pending := by
  obtain ⟨batchId, hbatchId, rfl⟩ := List.mem_map.mp h
  exact ⟨rfl, rfl, List.mem_range.mp hbatchId, rfl, rfl, rfl⟩

theorem mem_rest {t : Task} (h : t ∈ rest recordCount threadCount) :
    t.starts = false ∧ t.batchId = threadCount.toInt.toNat ∧
      t.phase = .submitted ∧ t.i = 0 ∧ t.future = .pending := by
  unfold rest at h
  split at h
  · obtain rfl := List.mem_singleton.mp h
    exact ⟨rfl, rfl, rfl, rfl, rfl⟩
  · cases h

theorem submitted_of_mem {t : Task}
    (h : t ∈ batches recordCount threadCount ++ rest recordCount threadCount) :
    t.phase = .submitted ∧ t.i = 0 ∧ t.future = .pending := by
  rcases List.mem_append.mp h with h | h
  · exact (mem_batches h).2.2.2
  · exact (mem_rest h).2.2

theorem batchIds_nodup :
    ((batches recordCount threadCount ++ rest recordCount threadCount).map Task.batchId).Nodup := by
  have hbatches : (batches recordCount threadCount).map Task.batchId =
      List.range threadCount.toInt.toNat := by
    rw [batches, List.map_map]
    exact List.map_id _
  rw [List.map_append, hbatches, List.nodup_append]
  refine ⟨List.nodup_range, ?_, ?_⟩
  · unfold rest
    split
    · exact List.nodup_singleton _
    · exact List.nodup_nil
  · intro b hb b' hb'
    obtain ⟨t, ht, rfl⟩ := List.mem_map.mp hb'
    rw [(mem_rest ht).2.1]
    exact (List.mem_range.mp hb).ne

/-- The state at the end of a run of the tasks of `load`. -/
theorem inv_of_run
    (hnames : NoCollision jdk draws table
      (batches recordCount threadCount ++ rest recordCount threadCount))
    {events : List Event} {s : State}
    (hrun : run (State.step jdk draws objSize)
      ⟨[], table, batches recordCount threadCount ++ rest recordCount threadCount⟩ events =
        some s) :
    Inv jdk draws objSize table (batches recordCount threadCount ++ rest recordCount threadCount)
      s :=
  run_preserves (fun _ _ _ h hstep => h.step batchIds_nodup hnames hstep)
    (inv_start fun _ ht => submitted_of_mem ht) hrun

theorem remainingRecs_eq_zero_iff (hrecords : 0 ≤ recordCount.toInt) :
    remainingRecs recordCount threadCount = 0 ↔ threadCount.toInt ∣ recordCount.toInt := by
  rw [remainingRecs, Int.tmod_eq_emod_of_nonneg hrecords, Int.dvd_iff_emod_eq_zero]
  have hpos : threadCount.toInt ≠ 0 → 0 ≤ recordCount.toInt % threadCount.toInt :=
    Int.emod_nonneg _
  by_cases hzero : threadCount.toInt = 0
  · rw [hzero, Int.emod_zero]
    omega
  · have := hpos hzero
    omega

theorem mul_numberOfRecsPerThread (hrecords : 0 ≤ recordCount.toInt)
    (hthreads : 1 ≤ threadCount.toInt) (hdvd : threadCount.toInt ∣ recordCount.toInt) :
    threadCount.toInt.toNat * numberOfRecsPerThread recordCount threadCount =
      recordCount.toInt.toNat := by
  rw [numberOfRecsPerThread, Int.tdiv_eq_ediv_of_nonneg hrecords]
  have hmul := Int.mul_ediv_cancel' hdvd
  have hquotient : 0 ≤ recordCount.toInt / threadCount.toInt :=
    Int.ediv_nonneg hrecords (by omega)
  rw [← Int.toNat_mul (by omega) hquotient, hmul]

/-- Without a rest every task inserts its records. -/
theorem ended_completed (hrecords : 0 ≤ recordCount.toInt) (hthreads : 1 ≤ threadCount.toInt)
    (hdvd : threadCount.toInt ∣ recordCount.toInt) (hsize : 0 ≤ objSize.toInt) {s : State}
    (h : Inv jdk draws objSize table
      (batches recordCount threadCount ++ rest recordCount threadCount) s)
    (hended : s.Ended) :
    s.Completed ∧
      ∃ rows, s.table.rows = table.rows ++ rows ∧ rows.length = recordCount.toInt.toNat := by
  have hrest : rest recordCount threadCount = [] := by
    rw [rest, if_neg (by rw [(remainingRecs_eq_zero_iff hrecords).mpr hdvd]; exact lt_irrefl 0)]
  rw [hrest, List.append_nil] at h
  have hleft : ∀ t ∈ s.tasks, t.i = numberOfRecsPerThread recordCount threadCount ∧
      t.future = .completed := by
    intro t ht
    obtain ⟨t₀, ht₀, hjob⟩ := h.submitted ht
    obtain ⟨hstarts, hrecs, -⟩ := mem_batches ht₀
    have hok := h.tasks t ht
    have hstarts' : t.starts = true := (congrArg (fun j => j.2.1) hjob).symm.trans hstarts
    have hrecs' : t.recs = numberOfRecsPerThread recordCount threadCount :=
      (congrArg (fun j => j.2.2) hjob).symm.trans hrecs
    simp only [Task.Ok, hended t ht, hstarts', if_true] at hok
    rcases hok with ⟨-, hi, hfuture⟩ | ⟨hnegative, -⟩
    · exact ⟨hi.trans hrecs', hfuture⟩
    · omega
  refine ⟨fun t ht => (hleft t ht).2, ?_⟩
  obtain ⟨rows, hrows, hperm⟩ := h.rows
  refine ⟨rows, hrows, ?_⟩
  have hcount : s.tasks.length = threadCount.toInt.toNat := by
    have hlength := congrArg List.length h.jobs
    rw [List.length_map, List.length_map, batches, List.length_map, List.length_range] at hlength
    exact hlength
  have hlengths : s.tasks.map (fun t => (t.inserted jdk draws objSize).length) =
      List.replicate threadCount.toInt.toNat (numberOfRecsPerThread recordCount threadCount) := by
    rw [← hcount, List.eq_replicate_iff]
    refine ⟨List.length_map _, ?_⟩
    intro n hn
    obtain ⟨t, ht, rfl⟩ := List.mem_map.mp hn
    rw [Task.inserted, List.length_map, List.length_range, (hleft t ht).1]
  rw [hperm.length_eq, List.length_flatMap, hlengths, List.sum_replicate_nat,
    mul_numberOfRecsPerThread hrecords hthreads hdvd]

/-- A rest is never inserted, and an array of negative size fails every task. -/
theorem dvd_of_completed (hrecords : 0 ≤ recordCount.toInt) (hthreads : 1 ≤ threadCount.toInt)
    {s : State}
    (h : Inv jdk draws objSize table
      (batches recordCount threadCount ++ rest recordCount threadCount) s)
    (hended : s.Ended) (hcompleted : s.Completed) :
    threadCount.toInt ∣ recordCount.toInt ∧ 0 ≤ objSize.toInt := by
  have hmem : ∀ t₀ ∈ batches recordCount threadCount ++ rest recordCount threadCount,
      ∃ t ∈ s.tasks, t.starts = t₀.starts ∧ t.future = .completed ∧
        if t.starts then t.Left objSize else t.i = 0 ∧ t.future = .pending := by
    intro t₀ ht₀
    have hjob := List.mem_map_of_mem (f := Task.job) ht₀
    rw [← h.jobs] at hjob
    obtain ⟨t, ht, heq⟩ := List.mem_map.mp hjob
    have hok := h.tasks t ht
    simp only [Task.Ok, hended t ht] at hok
    exact ⟨t, ht, congrArg (fun j => j.2.1) heq, hcompleted t ht, hok⟩
  constructor
  · rw [← remainingRecs_eq_zero_iff hrecords]
    by_contra hremaining
    have hrest : (⟨threadCount.toInt.toNat, false, remainingRecs recordCount threadCount,
        .submitted, 0, .pending⟩ : Task) ∈ rest recordCount threadCount := by
      rw [rest, if_pos (Nat.pos_of_ne_zero hremaining)]
      exact List.mem_singleton_self _
    obtain ⟨t, -, hstarts, hfuture, hok⟩ := hmem _ (List.mem_append_right _ hrest)
    rw [hstarts, if_neg Bool.false_ne_true, hfuture] at hok
    cases hok.2
  · have hbatch : (⟨0, true, numberOfRecsPerThread recordCount threadCount, .submitted, 0,
        .pending⟩ : Task) ∈ batches recordCount threadCount :=
      List.mem_map.mpr ⟨0, List.mem_range.mpr (by omega), rfl⟩
    obtain ⟨t, -, hstarts, hfuture, hok⟩ := hmem _ (List.mem_append_left _ hbatch)
    rw [hstarts, if_pos rfl] at hok
    rcases hok with ⟨hsize, -⟩ | ⟨-, -, hexceptional⟩
    · exact hsize
    · rw [hfuture] at hexceptional
      cases hexceptional

/-- **The load is complete exactly** when `threadCount` divides `recordCount`, the array of
futures can be allocated and so can the mem. -/
theorem load_completes_iff (jdk : Jdk) (draws : Draws) (table : ObjectsTable)
    (recordCount threadCount objSize : JInt) (hrecords : 0 ≤ recordCount.toInt)
    (hthreads : 1 ≤ threadCount.toInt)
    (hnames : ∀ tasks, load recordCount threadCount = some tasks →
      NoCollision jdk draws table tasks) :
    Completes jdk draws table recordCount threadCount objSize ↔
      threadCount.toInt ∣ recordCount.toInt ∧ threadCount.toInt < 2 ^ 31 - 1 ∧
        0 ≤ objSize.toInt := by
  constructor
  · rintro ⟨tasks, hload, -, hruns⟩
    have hnames := hnames tasks hload
    obtain ⟨hfits, rfl⟩ := (load_eq_some_iff hthreads).mp hload
    obtain ⟨more, s, hrun, hended⟩ := (hruns [] _ rfl).1
    obtain ⟨hdvd, hsize⟩ := dvd_of_completed hrecords hthreads (inv_of_run hnames hrun) hended
      ((hruns more s hrun).2 hended).1
    exact ⟨hdvd, hfits, hsize⟩
  · rintro ⟨hdvd, hfits, hsize⟩
    have hload : load recordCount threadCount =
        some (batches recordCount threadCount ++ rest recordCount threadCount) :=
      (load_eq_some_iff hthreads).mpr ⟨hfits, rfl⟩
    refine ⟨batches recordCount threadCount ++ rest recordCount threadCount, hload,
      ⟨State.measure ⟨[], table, batches recordCount threadCount ++ rest recordCount threadCount⟩,
        fun events s hrun => ?_⟩, fun events s hrun => ⟨exists_ended s, ?_⟩⟩
    · exact Nat.le_of_add_right_le (length_run_le (fun _ _ _ => measure_lt) hrun)
    · exact ended_completed hrecords hthreads hdvd hsize (inv_of_run (hnames _ hload) hrun)

end Load

/-! ## One record and two threads -/

/-- Every name is drawn from the number of its task. -/
def plainDraws : Draws where
  typeId _ _ := 0
  name batchId _ := BitVec.ofNat 32 batchId
  currentTimeMillis _ _ := ⟨0⟩

/-- Four records and two threads leave no rest. -/
theorem four_records_loaded : Completes Jdk.ascii plainDraws .empty 4 2 1 := by
  refine (load_completes_iff Jdk.ascii plainDraws .empty 4 2 1 (by decide) (by decide) ?_).mpr
    (by decide)
  intro tasks hload
  obtain rfl : [⟨0, true, 2, .submitted, 0, .pending⟩, ⟨1, true, 2, .submitted, 0, .pending⟩] =
    tasks := Option.some.inj hload
  exact ⟨by decide, by decide +kernel⟩

/-- Two turns to enter `insertRecs` with nothing to insert, and two to the end. -/
def oneOfTwo : List Event :=
  [.turn 0, .turn 0, .turn 0, .turn 0, .turn 1, .turn 1, .turn 1, .turn 1, .turn 2]

/-- One record for two threads is all rest: every task has ended, no row was inserted, and the
last future is pending for good. -/
theorem one_record_lost :
    (∀ tasks, load 1 2 = some tasks → NoCollision Jdk.ascii plainDraws .empty tasks) ∧
    ((load 1 2).bind fun tasks =>
        (run (State.step Jdk.ascii plainDraws 1) ⟨[], .empty, tasks⟩ oneOfTwo).map fun s =>
          (s.table.rows, s.tasks.map Task.phase, s.tasks.map Task.future)) =
      some ([], [.ended, .ended, .ended], [.completed, .completed, .pending]) ∧
    ¬ Completes Jdk.ascii plainDraws .empty 1 2 1 := by
  have hend : ((load 1 2).bind fun tasks =>
      (run (State.step Jdk.ascii plainDraws 1) ⟨[], .empty, tasks⟩ oneOfTwo).map fun s =>
        (s.table.rows, s.tasks.map Task.phase, s.tasks.map Task.future)) =
      some ([], [.ended, .ended, .ended], [.completed, .completed, .pending]) := by decide
  refine ⟨?_, hend, ?_⟩
  · intro tasks hload
    obtain rfl : [⟨0, true, 0, .submitted, 0, .pending⟩, ⟨1, true, 0, .submitted, 0, .pending⟩,
      ⟨2, false, 1, .submitted, 0, .pending⟩] = tasks := Option.some.inj hload
    exact ⟨by decide, by decide +kernel⟩
  rintro ⟨tasks, hload, -, hruns⟩
  rw [hload, Option.bind_some] at hend
  obtain ⟨s, hrun, hs⟩ := Option.map_eq_some_iff.mp hend
  obtain ⟨-, hphases, hfutures⟩ : s.table.rows = [] ∧
      s.tasks.map Task.phase = [.ended, .ended, .ended] ∧
      s.tasks.map Task.future = [.completed, .completed, .pending] := by simpa using hs
  have hended : s.Ended := by
    intro t ht
    have hphase := List.mem_map_of_mem (f := Task.phase) ht
    rw [hphases] at hphase
    simpa using hphase
  obtain ⟨t, ht, hpending⟩ := List.mem_map.mp (show Future.pending ∈ s.tasks.map Task.future by
    rw [hfutures]
    decide)
  have hcompleted := ((hruns _ s hrun).2 hended).1 t ht
  rw [hpending] at hcompleted
  cases hcompleted

end AuroraSizing.BulkLoad

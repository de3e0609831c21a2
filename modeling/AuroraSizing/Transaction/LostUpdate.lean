import AuroraSizing.Transaction.Interleaving

/-!
# Lost updates

The `WHERE` clause of an update, rename or delete names the triple its client last
read. Row locks and the second check make every committed statement replace a
version of its own; whether two statements with one triple can both find a version
is up to the counters the clients chose for the versions in between.
-/

namespace AuroraSizing.Transaction

open Foundation.RowLocks Foundation.System

/-- A statement replaces versions with the triple it carries. -/
def Carries (tag : Tag) (row : ObjectRow) : Prop := row.rowKey = tag.oldKey

theorem inv_perform {objects objects' : Store Tag ObjectRow} {stream : ℕ} {l : Line} {a : Action}
    (h : objects.Inv Carries) (hp : perform objects stream l a = some objects') :
    objects'.Inv Carries := by
  cases a with
  | execute stmt rows raised =>
      simp only [perform] at hp
      split at hp
      · obtain rfl := Option.some.inj hp
        exact h
      · split at hp
        · -- an insert
          split at hp
          · obtain rfl := Option.some.inj hp
            exact h.insert _ _
          · cases hp
        · -- an update, rename or delete that found its rows
          rename_i k found _ _ _
          split at hp
          · rename_i hgo
            obtain rfl := Option.some.inj hp
            refine h.rewrite (fun row hrow => RowKey.matches_iff.mp hrow) ?_
            intro r hr
            simpa using List.all_eq_true.mp hgo.1 r hr
          · cases hp
        · cases hp
        · -- a log row
          split at hp
          · obtain rfl := Option.some.inj hp
            exact h
          · cases hp
  | commit ok =>
      cases ok with
      | true =>
          obtain rfl := Option.some.inj hp
          exact h.commit _
      | false =>
          obtain rfl := Option.some.inj hp
          exact h
  | rollback ok =>
      cases ok with
      | true =>
          obtain rfl := Option.some.inj hp
          exact h.rollback _
      | false =>
          obtain rfl := Option.some.inj hp
          exact h
  | close ok =>
      obtain rfl := Option.some.inj hp
      exact h
  | respond m =>
      obtain rfl := Option.some.inj hp
      exact h

namespace Server

theorem inv_step {jdk : Jdk} {s s' : Server} {m : Move} (h : s.objects.Inv Carries)
    (hs : s.step jdk m = some s') : s'.objects.Inv Carries := by
  cases m with
  | accept stream connection resultSet =>
      simp only [step] at hs
      split at hs
      · obtain rfl := Option.some.inj hs
        exact h
      · cases hs
  | deliver stream e =>
      obtain ⟨l, -, hl⟩ := Option.bind_eq_some_iff.mp hs
      obtain ⟨l', -, rfl⟩ := Option.map_eq_some_iff.mp hl
      exact h
  | scan stream =>
      obtain ⟨l, -, hl⟩ := Option.bind_eq_some_iff.mp hs
      obtain ⟨l', -, rfl⟩ := Option.map_eq_some_iff.mp hl
      exact h
  | call stream =>
      obtain ⟨l, -, hl⟩ := Option.bind_eq_some_iff.mp hs
      unfold Server.call at hl
      split at hl
      · obtain ⟨objects, hperform, rfl⟩ := Option.map_eq_some_iff.mp hl
        exact inv_perform h hperform
      · cases hl
  | finish stream =>
      obtain ⟨l, -, hl⟩ := Option.bind_eq_some_iff.mp hs
      obtain ⟨l', -, rfl⟩ := Option.map_eq_some_iff.mp hl
      exact h

theorem inv_run {jdk : Jdk} {rows : List ObjectRow} {moves : List Move} {s : Server}
    (hrun : run (step jdk) (start rows) moves = some s) : s.objects.Inv Carries :=
  run_preserves (fun _ _ _ => inv_step) (Store.inv_load rows) hrun

/-! ## The result -/

/-- Whether the client of the stream has been sent `MsgOnSuccess`. -/
def answeredSuccess (s : Server) (stream : ℕ) : Bool :=
  match s.lines stream with
  | some l => l.stream.sent.any fun
      | .msgOnSuccess _ _ => true
      | .msgOnFailure _ _ => false
  | none => false

/-- The updates, renames and deletes with this triple that took effect in a stream
answered with `MsgOnSuccess`, each with the version it replaced. -/
def tookEffect (s : Server) (k : RowKey) : List (Tag × Version ObjectRow) :=
  s.objects.durable.replaced.filter fun e => e.1.oldKey = k ∧ s.answeredSuccess e.1.stream = true

/-- The versions with this triple: those of the initial rows, and those that committed
inserts, updates and renames stored. -/
def stored (s : Server) (k : RowKey) : List (Version ObjectRow) :=
  s.objects.durable.created.filter fun v => v.value.rowKey = k

theorem tookEffect_le_stored {s : Server} (h : s.objects.Inv Carries) (k : RowKey) :
    (s.tookEffect k).length ≤ (s.stored k).length := by
  refine Nat.le_trans ?_ (h.replaced_le_created fun row => row.rowKey = k)
  rw [tookEffect, ← List.countP_eq_length_filter, ← List.countP_eq_length_filter]
  refine List.countP_mono_left ?_
  intro e he htook
  have hcarries : e.2.value.rowKey = e.1.oldKey := h.durable_fits e he
  have hkey : e.1.oldKey = k := (of_decide_eq_true htook).1
  exact decide_eq_true (hcarries.trans hkey)

/-- **No update is lost to a triple that is stored once**: whatever the interleaving,
if one version ever had the triple, at most one update, rename or delete that carries
it takes effect in a stream answered with `MsgOnSuccess`. -/
theorem no_lost_update {jdk : Jdk} {rows : List ObjectRow} {moves : List Move} {s : Server}
    (hrun : run (step jdk) (start rows) moves = some s) (k : RowKey)
    (honce : (s.stored k).length ≤ 1) : (s.tookEffect k).length ≤ 1 :=
  Nat.le_trans (tookEffect_le_stored (inv_run hrun) k) honce

/-! ## Two updates with one triple -/

def testSec : ObjectRow where
  name := "testSec-10"
  typeId := 1
  lastTransaction := 1
  timeUpdated := ⟨0⟩
  updateCount := 1
  dateCreated := 1
  dbIdUpdated := 1
  versionInfo := 1
  sdbDiskMem := []
  mem := []
  nameLower := "testsec-10"

/-- An update of `testSec` that stores this counter. -/
def updateTo (updateCount : JLong) : CmdTransactionRequest where
  transSeqValue := 2
  messageRequest := .update
    { oldMetadata := { securityName := "testSec-10", updateCount := 1, dbIdUpdated := 1 }
      newMetadata :=
        { securityName := "testSec-10", updateCount := updateCount, dbIdUpdated := 1
          timeUpdate := "1970-01-01 00:00:00" } }

/-- A callback without a statement to wait for, with this many calls. -/
def runCallback (stream : ℕ) (e : Event) (calls : ℕ) : List Move :=
  .deliver stream e :: List.replicate calls (.call stream) ++ [.finish stream]

/-- Two streams update the row, the second waiting for the first; `second` is what the
driver tells it, `calls` what is left of its callback after the update. -/
def twoUpdates (updateCount : JLong) (second : Outcomes) (calls : ℕ) : List Move :=
  [.accept 0 0 (some 7), .accept 1 1 (some 8),
    .deliver 0 (.onNext (updateTo updateCount), {}), .scan 0,
    .deliver 1 (.onNext (updateTo updateCount), second), .scan 1,
    .call 0, .call 0, .finish 0] ++
  runCallback 0 (.onCompleted, {}) 3 ++
  List.replicate calls (.call 1) ++ [.finish 1]

/-- With a new counter the second update finds nothing, and its stream fails. -/
theorem new_counter_keeps_update :
    ∃ s, run (step Jdk.ascii) (start [testSec]) (twoUpdates 2 { op := { rows := 0 } } 4) = some s ∧
      s.answeredSuccess 0 = true ∧ s.answeredSuccess 1 = false ∧
      (s.tookEffect testSec.rowKey).length ≤ 1 := by
  have hrun : run (step Jdk.ascii) (start [testSec]) (twoUpdates 2 { op := { rows := 0 } } 4) =
      some _ := rfl
  exact ⟨_, hrun, by decide, by decide, no_lost_update hrun testSec.rowKey (by decide)⟩

/-- With the counters unchanged, as the Go client's own transaction sends them, both
updates take effect and both clients are told so. -/
theorem unchanged_counter_loses_update :
    ∃ s, run (step Jdk.ascii) (start [testSec])
        (twoUpdates 1 {} 2 ++ runCallback 1 (.onCompleted, {}) 3) = some s ∧
      s.answeredSuccess 0 = true ∧ s.answeredSuccess 1 = true ∧
      (s.tookEffect testSec.rowKey).length = 2 :=
  ⟨_, rfl, by decide, by decide, by decide⟩

end Server

end AuroraSizing.Transaction

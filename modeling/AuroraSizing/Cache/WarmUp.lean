import AuroraSizing.Cache.Held
import AuroraSizing.Foundation.Windows
import AuroraSizing.Foundation.WorkPool
import Mathlib.Data.BitVec

/-!
# Warming up the near cache

`warmupNearCache` counts the objects, asks for their names in chunks of 100000, and lets a pool of
32 threads call `getFullObject` for each of them. The loop counts the chunks from 1 and starts
chunk `i` at row `i * chunkSize`, so that nobody asks for the first 100000 rows.
-/

namespace AuroraSizing.Cache.WarmUp

open Foundation.Bytes Foundation.System Foundation.Windows Foundation.WorkPool

/-! ## The queries -/

/-- `select count(1) from objects`: a `bigint`, or an error. -/
def Store.COUNT_RECORDS (table : ObjectsTable) : Option JLong :=
  if table.rows.length < 2 ^ 63 then some (BitVec.ofNat 64 table.rows.length) else none

/-- `Select name from objects LIMIT ? OFFSET ?`, an error on a negative number. -/
def Store.OBJ_KEYS (order : List ObjectRow) (p₁ p₂ : JInt) : Option (List String) :=
  if 0 ≤ p₁.toInt ∧ 0 ≤ p₂.toInt then
    some (window p₁.toInt.toNat (order.map ObjectRow.name) p₂.toInt.toNat)
  else none

/-- How the database answers. -/
structure Surroundings where
  /-- `countRecs` raises. -/
  countRaises : Bool
  /-- The order in which the `k`-th `getObjKeys` sees the rows. -/
  order : ℕ → ObjectsTable → List ObjectRow
  perm : ∀ k table, (order k table).Perm table.rows
  /-- It raises after so many names. -/
  raises : ℕ → Option ℕ

def ObjectRepository.countRecs (env : Surroundings) (table : ObjectsTable) : JLong :=
  match Store.COUNT_RECORDS table, env.countRaises with
  | some x, false => x
  | _, _ => -1

/-- The names that were read before an exception are returned. -/
def ObjectRepository.getObjKeys (env : Surroundings) (k : ℕ) (table : ObjectsTable)
    (limit offset : JInt) : List String :=
  match Store.OBJ_KEYS (env.order k table) limit offset, env.raises k with
  | some keys, none => keys
  | some keys, some n => keys.take n
  | none, _ => []

/-- Whatever happens, the keys are some of those in the window. -/
theorem ObjectRepository.getObjKeys_sublist (env : Surroundings) (k : ℕ) (table : ObjectsTable)
    (limit offset : JInt) :
    (ObjectRepository.getObjKeys env k table limit offset).Sublist
      (window limit.toInt.toNat ((env.order k table).map ObjectRow.name) offset.toInt.toNat) := by
  have hkeys : ∀ keys, Store.OBJ_KEYS (env.order k table) limit offset = some keys → keys =
      window limit.toInt.toNat ((env.order k table).map ObjectRow.name) offset.toInt.toNat := by
    intro keys hkeys
    unfold Store.OBJ_KEYS at hkeys
    split at hkeys
    case isTrue => exact (Option.some.inj hkeys).symm
    case isFalse => cases hkeys
  unfold ObjectRepository.getObjKeys
  split
  case h_1 keys heq _ =>
    rw [hkeys keys heq]
  case h_2 keys n heq _ =>
    rw [hkeys keys heq]
    exact List.take_sublist n _
  case h_3 => exact List.nil_sublist _

/-! ## The warm-up -/

def chunkSize : JInt := 100000

def chunkCount (recCnt : JLong) : JLong := recCnt.sdiv (chunkSize.signExtend 64) + 1

/-- `i <= chunkCount`, with an `int` and a `long`. -/
def more (recCnt : JLong) (i : JInt) : Bool := (i.signExtend 64).sle (chunkCount recCnt)

structure State where
  cluster : Cluster
  recCnt : JLong
  i : JInt
  warmupService : Pool (Fin 32) String
  remainingRecCCnt : JLong

inductive Event where
  /-- The loop asks for a chunk and submits a task for it. -/
  | execute
  /-- A thread of the pool takes a task. -/
  | take (thread : Fin 32)
  /-- A thread of the pool goes on with its task. `returned` is that of `Cluster.next`. -/
  | turn (thread : Fin 32) (returned : Bool)
  /-- Something else happens in the cluster. -/
  | other (e : Cache.Event)

/-- The event is not one of the threads of the pool. -/
def outside : Cache.Event → Bool
  | .getFullObject thread _ _ | .next thread _ => 32 ≤ thread
  | .commit _ | .evictNear _ _ | .evictRedis _ | .replicate _ => true

/-- The call of the thread has ended in an exception. -/
def threw (c : Cluster) (thread : ℕ) : Bool :=
  match c.requests thread, c.answers.getLast? with
  | none, some ⟨_, .error _, _⟩ => true
  | _, _ => false

/-- `keys.size() * -1` -/
def sizeTimesMinusOne (keys : List String) : JLong :=
  (BitVec.ofNat 32 keys.length * -1).signExtend 64

/-- The chunk the loop asks for when it has asked for `k`. -/
def chunk (env : Surroundings) (table : ObjectsTable) (k : ℕ) (i : JInt) : List String :=
  ObjectRepository.getObjKeys env k table chunkSize (i * chunkSize)

namespace State

/-- The chunks have been counted. -/
def start (env : Surroundings) (c : Cluster) : State where
  cluster := c
  recCnt := ObjectRepository.countRecs env c.objects
  i := 1
  warmupService := .idle
  remainingRecCCnt := ObjectRepository.countRecs env c.objects

def execute (env : Surroundings) (s : State) : Option State :=
  if more s.recCnt s.i then do
    let keys := chunk env s.cluster.objects s.warmupService.submitted.length s.i
    let pool ← s.warmupService.step (.submit keys)
    return { s with i := s.i + 1, warmupService := pool }
  else none

variable (jdk : Jdk) (malformed : Bytes → String) (server : ℕ)

/-- An exception leaves `forEach` and the task, before the counter. -/
def turn (s : State) (thread : Fin 32) (returned : Bool) : Option State :=
  match s.warmupService.workers thread, s.cluster.requests thread with
  | none, _ => none
  | some _, some r =>
      let cluster := s.cluster.next jdk malformed thread r returned
      if threw cluster thread then do
        let pool ← s.warmupService.step (.drop thread)
        return { s with cluster := cluster, warmupService := pool }
      else some { s with cluster := cluster }
  | some ⟨_, key :: _⟩, none => do
      let cluster ← s.cluster.step jdk malformed (.getFullObject thread server key)
      let pool ← s.warmupService.step (.start thread)
      return { s with cluster := cluster, warmupService := pool }
  | some ⟨keys, []⟩, none => do
      let pool ← s.warmupService.step (.finish thread)
      return { s with
        warmupService := pool
        remainingRecCCnt := s.remainingRecCCnt + sizeTimesMinusOne keys }

def step (env : Surroundings) (s : State) : Event → Option State
  | .execute => s.execute env
  | .take thread => do
      let pool ← s.warmupService.step (.take thread)
      return { s with warmupService := pool }
  | .turn thread returned => s.turn jdk malformed server thread returned
  | .other e =>
      if outside e then do
        let cluster ← s.cluster.step jdk malformed e
        return { s with cluster := cluster }
      else none

/-- The loop is over and all tasks have finished. -/
def Finished (s : State) : Prop := more s.recCnt s.i = false ∧ s.warmupService.Done

/-- Each row was asked for once, `getFullObject` was called for it, and nothing remains. -/
structure Warm (s : State) : Prop where
  once : ∀ r ∈ s.cluster.objects.rows, s.warmupService.submitted.flatten.count r.name = 1
  called : ∀ r ∈ s.cluster.objects.rows, r.name ∈ s.warmupService.started
  remaining : s.remainingRecCCnt = 0

end State

/-- No transaction commits, and neither Redis nor the database fails in a call of the pool. -/
def Undisturbed (_ : State) : Event → Prop
  | .other (.commit _) | .turn _ false => False
  | _ => True

/-- The warm-up can come to an end, and however it does, everything is warm. -/
structure WarmsUp (jdk : Jdk) (malformed : Bytes → String) (server : ℕ) (env : Surroundings)
    (c : Cluster) : Prop where
  ends : ∃ es t, Along (State.step jdk malformed server env) Undisturbed (.start env c) es ∧
    run (State.step jdk malformed server env) (.start env c) es = some t ∧ t.Finished
  warm : ∀ es t, Along (State.step jdk malformed server env) Undisturbed (.start env c) es →
    run (State.step jdk malformed server env) (.start env c) es = some t → t.Finished → t.Warm

/-- Every query sees the rows in this order and comes to its end. -/
structure Surroundings.Steady (env : Surroundings) (table : ObjectsTable)
    (order : List ObjectRow) : Prop where
  counts : env.countRaises = false
  order : ∀ k, env.order k table = order
  raises : ∀ k, env.raises k = none

/-! ## What a step can do -/

namespace State

variable {jdk : Jdk} {malformed : Bytes → String} {server : ℕ} {env : Surroundings}

/-- The steps, with what decided them. -/
inductive Moves (jdk : Jdk) (malformed : Bytes → String) (server : ℕ) (env : Surroundings)
    (s : State) : Event → State → Prop
  | execute {pool : Pool (Fin 32) String} (more : more s.recCnt s.i = true)
      (submit : s.warmupService.step
        (.submit (chunk env s.cluster.objects s.warmupService.submitted.length s.i)) = some pool) :
      Moves jdk malformed server env s .execute { s with i := s.i + 1, warmupService := pool }
  | take {thread : Fin 32} {pool : Pool (Fin 32) String}
      (take : s.warmupService.step (.take thread) = some pool) :
      Moves jdk malformed server env s (.take thread) { s with warmupService := pool }
  | threw {thread : Fin 32} {returned : Bool} {r : Request} {pool : Pool (Fin 32) String}
      (running : s.cluster.requests thread = some r)
      (threw : threw (s.cluster.next jdk malformed thread r returned) thread = true)
      (drop : s.warmupService.step (.drop thread) = some pool) :
      Moves jdk malformed server env s (.turn thread returned)
        { s with
          cluster := s.cluster.next jdk malformed thread r returned
          warmupService := pool }
  | next {thread : Fin 32} {returned : Bool} {r : Request} {task : Job String}
      (job : s.warmupService.workers thread = some task)
      (running : s.cluster.requests thread = some r)
      (returns : WarmUp.threw (s.cluster.next jdk malformed thread r returned) thread = false) :
      Moves jdk malformed server env s (.turn thread returned)
        { s with cluster := s.cluster.next jdk malformed thread r returned }
  | call {thread : Fin 32} {returned : Bool} {keys left : List String} {key : String}
      {cluster : Cluster} {pool : Pool (Fin 32) String}
      (job : s.warmupService.workers thread = some ⟨keys, key :: left⟩)
      (idle : s.cluster.requests thread = none)
      (begins : s.cluster.step jdk malformed (.getFullObject thread server key) = some cluster)
      (start : s.warmupService.step (.start thread) = some pool) :
      Moves jdk malformed server env s (.turn thread returned)
        { s with cluster := cluster, warmupService := pool }
  | finish {thread : Fin 32} {returned : Bool} {keys : List String} {pool : Pool (Fin 32) String}
      (job : s.warmupService.workers thread = some ⟨keys, []⟩)
      (idle : s.cluster.requests thread = none)
      (finish : s.warmupService.step (.finish thread) = some pool) :
      Moves jdk malformed server env s (.turn thread returned)
        { s with
          warmupService := pool
          remainingRecCCnt := s.remainingRecCCnt + sizeTimesMinusOne keys }
  | other {e : Cache.Event} {cluster : Cluster} (outside : outside e = true)
      (happens : s.cluster.step jdk malformed e = some cluster) :
      Moves jdk malformed server env s (.other e) { s with cluster := cluster }

theorem moves_of_step {s s' : State} {e : Event}
    (h : s.step jdk malformed server env e = some s') : Moves jdk malformed server env s e s' := by
  cases e with
  | execute =>
      simp only [step, execute] at h
      split at h
      case isTrue hmore =>
        obtain ⟨pool, hsubmit, h⟩ := Option.bind_eq_some_iff.mp h
        cases h
        exact .execute hmore hsubmit
      case isFalse => cases h
  | take thread =>
      obtain ⟨pool, htake, h⟩ := Option.bind_eq_some_iff.mp h
      cases h
      exact .take htake
  | turn thread returned =>
      simp only [step, turn] at h
      split at h
      case h_1 => cases h
      case h_2 job r hjob hrunning =>
        split at h
        case isTrue hthrew =>
          obtain ⟨pool, hdrop, h⟩ := Option.bind_eq_some_iff.mp h
          cases h
          exact .threw hrunning hthrew hdrop
        case isFalse hreturns =>
          cases h
          exact .next hjob hrunning (Bool.eq_false_iff.mpr hreturns)
      case h_3 keys key left hjob hidle =>
        obtain ⟨cluster, hbegins, h⟩ := Option.bind_eq_some_iff.mp h
        obtain ⟨pool, hstart, h⟩ := Option.bind_eq_some_iff.mp h
        cases h
        exact .call hjob hidle hbegins hstart
      case h_4 keys hjob hidle =>
        obtain ⟨pool, hfinish, h⟩ := Option.bind_eq_some_iff.mp h
        cases h
        exact .finish hjob hidle hfinish
  | other e =>
      simp only [step] at h
      split at h
      case isTrue houtside =>
        obtain ⟨cluster, hhappens, h⟩ := Option.bind_eq_some_iff.mp h
        cases h
        exact .other houtside hhappens
      case isFalse => cases h

/-- The pool makes a move of its own at each step, or none. -/
theorem warmupService_step {s s' : State} {e : Event}
    (h : s.step jdk malformed server env e = some s') :
    s'.warmupService = s.warmupService ∨ ∃ m, s.warmupService.step m = some s'.warmupService := by
  cases moves_of_step h with
  | execute _ hpool | take hpool | threw _ _ hpool | call _ _ _ hpool | finish _ _ hpool =>
      exact .inr ⟨_, hpool⟩
  | next | other => exact .inl rfl

/-! ## The chunks asked for -/

theorem objects_of_undisturbed {s s' : State} {e : Event} (hok : Undisturbed s e)
    (h : s.step jdk malformed server env e = some s') :
    s'.cluster.objects = s.cluster.objects ∧ s'.recCnt = s.recCnt := by
  cases moves_of_step h with
  | execute | take | finish => exact ⟨rfl, rfl⟩
  | threw | next => exact ⟨Cluster.objects_next _ _ _ _, rfl⟩
  | call _ _ hbegins =>
      rcases Cluster.objects_step hbegins with heq | hsame
      · cases heq
      · exact ⟨hsame, rfl⟩
  | other _ hhappens =>
      rcases Cluster.objects_step hhappens with rfl | hsame
      · exact hok.elim
      · exact ⟨hsame, rfl⟩

/-- How many chunks the loop has asked for. -/
def asked (s : State) : ℕ := s.warmupService.submitted.length

/-- The loop has asked for chunk 1, chunk 2 and so on, and for none that was not due. -/
structure Asked (env : Surroundings) (table : ObjectsTable) (s : State) : Prop where
  objects : s.cluster.objects = table
  recCnt : s.recCnt = ObjectRepository.countRecs env table
  i : s.i = BitVec.ofNat 32 (s.asked + 1)
  chunks : s.warmupService.submitted =
    (List.range s.asked).map fun k => chunk env table k (BitVec.ofNat 32 (k + 1))
  due : ∀ k < s.asked, more s.recCnt (BitVec.ofNat 32 (k + 1)) = true

theorem asked_start (c : Cluster) : Asked env c.objects (start env c) where
  objects := rfl
  recCnt := rfl
  i := rfl
  chunks := rfl
  due := fun _ h => nomatch h

theorem Asked.of_submitted {table : ObjectsTable} {s s' : State} (hs : Asked env table s)
    (hobjects : s'.cluster.objects = s.cluster.objects) (hrecCnt : s'.recCnt = s.recCnt)
    (hi : s'.i = s.i) (hsubmitted : s'.warmupService.submitted = s.warmupService.submitted) :
    Asked env table s' := by
  have hasked : s'.asked = s.asked := congrArg List.length hsubmitted
  refine ⟨hobjects.trans hs.objects, hrecCnt.trans hs.recCnt, ?_, ?_, ?_⟩
  · rw [hi, hasked, hs.i]
  · rw [hsubmitted, hasked, ← hs.chunks]
  · rw [hasked, hrecCnt]
    exact hs.due

theorem Asked.step {table : ObjectsTable} {s s' : State} {e : Event} (hs : Asked env table s)
    (hok : Undisturbed s e) (h : s.step jdk malformed server env e = some s') :
    Asked env table s' := by
  obtain ⟨hobjects, hrecCnt⟩ := objects_of_undisturbed hok h
  cases moves_of_step h with
  | @execute pool hmore hsubmit =>
      have hsubmitted := Pool.submitted_step hsubmit
      have hasked : pool.submitted.length = s.asked + 1 := by
        rw [hsubmitted, List.length_append]
        rfl
      refine ⟨hs.objects, hs.recCnt, ?_, ?_, ?_⟩
      · show s.i + 1 = BitVec.ofNat 32 (pool.submitted.length + 1)
        rw [hasked, hs.i]
        exact BitVec.ofNat_add_ofNat _ _
      · show pool.submitted = (List.range pool.submitted.length).map _
        rw [hasked, List.range_succ, List.map_append, ← hs.chunks, hsubmitted, hs.objects, hs.i]
        rfl
      · show ∀ k < pool.submitted.length, more s.recCnt _ = true
        intro k hk
        rw [hasked] at hk
        rcases Nat.lt_succ_iff_lt_or_eq.mp hk with hlt | rfl
        · exact hs.due k hlt
        · rw [← hs.i]
          exact hmore
  | take hpool | threw _ _ hpool | call _ _ _ hpool | finish _ _ hpool =>
      refine hs.of_submitted hobjects hrecCnt rfl ?_
      rw [Pool.submitted_step hpool]
      exact List.append_nil _
  | next | other => exact hs.of_submitted hobjects hrecCnt rfl rfl

/-- The rows have not changed, and the loop has asked for the chunks one after another. -/
theorem asked_of_run {c : Cluster} {es : List Event} {t : State}
    (hok : Along (State.step jdk malformed server env) Undisturbed (start env c) es)
    (hrun : run (State.step jdk malformed server env) (start env c) es = some t) :
    Asked env c.objects t :=
  run_invariant (fun _ _ _ hs hok hstep => hs.step hok hstep) (asked_start c) hok hrun

/-! ## How many chunks -/

theorem more_iff {recCnt : JLong} {i : JInt} :
    more recCnt i = true ↔ i.toInt ≤ (chunkCount recCnt).toInt := by
  rw [more, BitVec.sle_iff_toInt_le, BitVec.toInt_signExtend_of_le (by decide)]

/-- The loop ends behind the last chunk, if it ends. -/
theorem asked_of_finished {table : ObjectsTable} {s : State} (hs : Asked env table s)
    (hfinished : s.Finished) (hpos : 0 ≤ (chunkCount s.recCnt).toInt) :
    (s.asked : ℤ) = (chunkCount s.recCnt).toInt := by
  have hover : (chunkCount s.recCnt).toInt < s.i.toInt := by
    rw [← not_le, ← more_iff, hfinished.1]
    exact Bool.false_ne_true
  have hint : s.i.toInt < 2 ^ 31 := BitVec.toInt_lt
  rcases lt_trichotomy (s.asked : ℤ) (chunkCount s.recCnt).toInt with hlt | heq | hgt
  · have hi : 2 * (s.asked + 1) < 2 ^ 32 := by omega
    rw [hs.i, toInt_ofNat_of_lt hi] at hover
    omega
  · exact heq
  · have hdue := more_iff.mp (hs.due (chunkCount s.recCnt).toInt.toNat (by omega))
    rw [toInt_ofNat_of_lt (by omega)] at hdue
    omega

end State

theorem toInt_chunkCount {recCnt : JLong} (h : 0 ≤ recCnt.toInt) :
    (chunkCount recCnt).toInt = recCnt.toInt / 100000 + 1 := by
  have hlt : recCnt.toInt < 2 ^ 63 := BitVec.toInt_lt
  have hsize : (chunkSize.signExtend 64).toInt = 100000 := by decide
  have hone : (1 : JLong).toInt = 1 := by decide
  rw [chunkCount, BitVec.toInt_add, BitVec.toInt_sdiv, hsize, Int.tdiv_eq_ediv_of_nonneg h, hone,
    Int.bmod_add_bmod, Int.bmod_eq_of_le (by omega) (by omega)]

section Steady

variable {env : Surroundings} {table : ObjectsTable} {order : List ObjectRow}

theorem Surroundings.Steady.perm (h : env.Steady table order) : order.Perm table.rows :=
  h.order 0 ▸ env.perm 0 table

theorem Surroundings.Steady.nodup (h : env.Steady table order) :
    (order.map ObjectRow.name).Nodup :=
  (h.perm.map ObjectRow.name).nodup_iff.mpr table.objectName

theorem Surroundings.Steady.toInt_countRecs (h : env.Steady table order)
    (hlength : table.rows.length < 2 ^ 63) :
    (ObjectRepository.countRecs env table).toInt = table.rows.length := by
  rw [ObjectRepository.countRecs, Store.COUNT_RECORDS, if_pos hlength, h.counts]
  exact toInt_ofNat_of_lt (by omega)

/-- A table of more rows than a `bigint` counts as one row does. -/
theorem Surroundings.Steady.toInt_chunkCount (h : env.Steady table order) :
    (chunkCount (ObjectRepository.countRecs env table)).toInt =
      if table.rows.length < 2 ^ 63 then (table.rows.length : ℤ) / 100000 + 1 else 1 := by
  split
  case isTrue hlength =>
    have hcount := h.toInt_countRecs hlength
    rw [WarmUp.toInt_chunkCount (by omega), hcount]
  case isFalse hlength =>
    rw [ObjectRepository.countRecs, Store.COUNT_RECORDS, if_neg hlength, h.counts]
    decide

theorem Surroundings.Steady.chunk (h : env.Steady table order) (k : ℕ) (i : JInt) :
    chunk env table k i =
      if 0 ≤ (i * chunkSize).toInt then
        window 100000 (order.map ObjectRow.name) (i * chunkSize).toInt.toNat
      else [] := by
  have hlimit : (0 : ℤ) ≤ chunkSize.toInt ∧ chunkSize.toInt.toNat = 100000 := by decide
  rw [WarmUp.chunk, ObjectRepository.getObjKeys, Store.OBJ_KEYS, h.order, h.raises, hlimit.2]
  by_cases hoffset : 0 ≤ (i * chunkSize).toInt
  · rw [if_pos ⟨hlimit.1, hoffset⟩, if_pos hoffset]
  · rw [if_neg (fun hboth => hoffset hboth.2), if_neg hoffset]

/-! ## The offsets -/

theorem toNat_offset {j : ℕ} (h : j < 42950) :
    (BitVec.ofNat 32 j * chunkSize).toNat = 100000 * j := by
  have hsize : chunkSize.toNat = 100000 := by decide
  rw [BitVec.toNat_mul, BitVec.toNat_ofNat, hsize, Nat.mod_eq_of_lt (by omega),
    Nat.mod_eq_of_lt (by omega), Nat.mul_comm]

theorem toInt_offset {j : ℕ} (h : j ≤ 21474) :
    (BitVec.ofNat 32 j * chunkSize).toInt = 100000 * j := by
  rw [BitVec.toInt_eq_toNat_cond, toNat_offset (by omega), if_pos (by omega)]
  rfl

/-- The product has overflown. -/
theorem toInt_offset_neg {j : ℕ} (hlt : 21474 < j) (hle : j < 42950) :
    (BitVec.ofNat 32 j * chunkSize).toInt < 0 := by
  rw [BitVec.toInt_eq_toNat_cond, toNat_offset hle, if_neg (by omega)]
  omega

/-- A row is in the chunks whose offset is at most a chunk before it. -/
theorem Surroundings.Steady.mem_chunk_iff (h : env.Steady table order) {row : ℕ}
    (hrow : row < order.length) {i : JInt} (offset : ℕ)
    (hoffset : (i * chunkSize).toInt = offset) (k : ℕ) :
    order[row].name ∈ WarmUp.chunk env table k i ↔ offset ≤ row ∧ row < offset + 100000 := by
  have hnames : row < (order.map ObjectRow.name).length := by rwa [List.length_map]
  have hwindow := getElem_mem_window_iff h.nodup 100000 offset hnames
  rw [List.getElem_map] at hwindow
  rw [h.chunk, hoffset, if_pos (Int.natCast_nonneg offset), Int.toNat_natCast, hwindow]

/-- The first row is in no chunk until the product overflows for the second time. -/
theorem Surroundings.Steady.first_notMem (h : env.Steady table order) (hpos : 0 < order.length)
    {j : ℕ} (hj : 0 < j) (hle : j < 42950) (k : ℕ) :
    order[0].name ∉ WarmUp.chunk env table k (BitVec.ofNat 32 j) := by
  by_cases hpositive : j ≤ 21474
  · rw [h.mem_chunk_iff hpos (100000 * j) (toInt_offset hpositive)]
    omega
  · have hnegative := toInt_offset_neg (Nat.not_le.mp hpositive) hle
    rw [h.chunk, if_neg (Int.not_le.mpr hnegative)]
    exact List.not_mem_nil

end Steady

namespace State

variable {jdk : Jdk} {malformed : Bytes → String} {server : ℕ} {env : Surroundings}
  {table : ObjectsTable} {order : List ObjectRow} {s : State}

/-- While the product has not overflown twice, the first row is not asked for. -/
theorem Asked.count_first (hs : Asked env table s) (h : env.Steady table order)
    (hpos : 0 < order.length) (hasked : s.asked < 42950) :
    s.warmupService.submitted.flatten.count order[0].name = 0 := by
  rw [List.count_eq_zero, List.mem_flatten]
  rintro ⟨keys, hkeys, hmem⟩
  rw [hs.chunks] at hkeys
  obtain ⟨k, hk, rfl⟩ := List.mem_map.mp hkeys
  have hlt := List.mem_range.mp hk
  exact h.first_notMem hpos (Nat.succ_pos k) (by omega) k hmem

/-- Then row 100000 is asked for again. -/
theorem Asked.count_again (hs : Asked env table s) (h : env.Steady table order)
    (hlength : 100000 < order.length) (hasked : 42950 ≤ s.asked) :
    2 ≤ s.warmupService.submitted.flatten.count order[100000].name := by
  have hfirst : order[100000].name ∈ chunk env table 0 (BitVec.ofNat 32 1) := by
    rw [h.mem_chunk_iff hlength 100000 (by decide)]
    omega
  have hagain : order[100000].name ∈ chunk env table 42949 (BitVec.ofNat 32 42950) := by
    rw [h.mem_chunk_iff hlength 32704 (by decide)]
    omega
  obtain ⟨m, hm⟩ : ∃ m, s.asked = m + 1 := ⟨s.asked - 1, by omega⟩
  rw [hs.chunks, hm, List.range_succ_eq_map, List.map_cons, List.flatten_cons, List.count_append]
  have hone := List.count_pos_iff.mpr hfirst
  have hmem : 42949 ∈ (List.range m).map Nat.succ :=
    List.mem_map.mpr ⟨42948, List.mem_range.mpr (by omega), rfl⟩
  have hchunk := List.mem_map_of_mem
    (f := fun k => chunk env table k (BitVec.ofNat 32 (k + 1))) hmem
  have htwo := List.count_pos_iff.mpr (List.mem_flatten.mpr ⟨_, hchunk, hagain⟩)
  exact Nat.add_le_add hone htwo

/-- A table with rows is never warm in the end. -/
theorem Asked.not_warm (hs : Asked env table s) (h : env.Steady table order)
    (hrows : table.rows ≠ []) (hfinished : s.Finished) : ¬ s.Warm := by
  intro hwarm
  have hlength := h.perm.length_eq
  have hpos : 0 < order.length := by
    rw [hlength]
    exact List.length_pos_iff.mpr hrows
  have honce : ∀ r ∈ order, s.warmupService.submitted.flatten.count r.name = 1 := by
    intro r hr
    exact hwarm.once r (by rwa [hs.objects, ← h.perm.mem_iff])
  have hcount := h.toInt_chunkCount
  rw [← hs.recCnt] at hcount
  have hasked := asked_of_finished hs hfinished (by rw [hcount]; split <;> omega)
  rw [hcount] at hasked
  by_cases hsmall : s.asked < 42950
  · have hzero := hs.count_first h hpos hsmall
    rw [honce _ (List.getElem_mem hpos)] at hzero
    cases hzero
  · have hlarge : 100000 < order.length := by
      split at hasked <;> omega
    have htwice := hs.count_again h hlarge (Nat.not_lt.mp hsmall)
    rw [honce _ (List.getElem_mem hlarge)] at htwice
    omega

/-! ## The counter -/

theorem accounts_of_run {M : Type*} [AddCancelCommMonoid M] (worth : Worth String M) {c : Cluster}
    {es : List Event} {t : State}
    (hrun : run (State.step jdk malformed server env) (start env c) es = some t) :
    t.warmupService.Accounts worth := by
  have hstep : ∀ s e s', s.warmupService.Accounts worth →
      State.step jdk malformed server env s e = some s' → s'.warmupService.Accounts worth := by
    intro s e s' hs hstep
    rcases warmupService_step hstep with hsame | ⟨m, hm⟩
    · rwa [hsame]
    · exact hs.step hm
  exact @run_preserves _ _ _ (fun s : State => s.warmupService.Accounts worth) hstep _ _ _
    (Pool.accounts_idle worth) hrun

/-- The sizes of the chunks whose tasks have finished are subtracted. -/
def Counted (s : State) : Prop :=
  s.remainingRecCCnt = s.recCnt + (s.warmupService.finished.map sizeTimesMinusOne).sum

theorem Counted.step {s s' : State} {e : Event} (hs : s.Counted)
    (h : s.step jdk malformed server env e = some s') : s'.Counted := by
  unfold Counted at hs ⊢
  cases moves_of_step h with
  | @finish thread _ keys pool hjob _ hfinish =>
      have hfinished := Pool.finished_step hfinish
      rw [Pool.finishes, hjob, Option.elim_some] at hfinished
      show s.remainingRecCCnt + sizeTimesMinusOne keys =
        s.recCnt + (pool.finished.map sizeTimesMinusOne).sum
      rw [hfinished, List.map_append, List.map_singleton, List.sum_append, List.sum_singleton, hs,
        add_assoc]
  | execute _ hpool | take hpool | threw _ _ hpool | call _ _ _ hpool =>
      show s.remainingRecCCnt = s.recCnt + _
      rw [Pool.finished_step hpool, Pool.finishes, List.append_nil]
      exact hs
  | next | other => exact hs

theorem counted_of_run {c : Cluster} {es : List Event} {t : State}
    (hrun : run (State.step jdk malformed server env) (start env c) es = some t) : t.Counted := by
  have hstart : (start env c).Counted := (add_zero _).symm
  exact run_preserves (fun _ _ _ hs hstep => hs.step hstep) hstart hrun

/-- Over no rows at all, nothing remains. -/
theorem Asked.warm (hs : Asked env table s) (h : env.Steady table order) (hrows : table.rows = [])
    (haccounts : s.warmupService.Accounts Worth.jobs) (hcounted : s.Counted) : s.Warm := by
  have horder : order = [] := (hrows ▸ h.perm).eq_nil
  have hempty : ∀ keys ∈ s.warmupService.submitted, keys = [] := by
    intro keys hkeys
    rw [hs.chunks] at hkeys
    obtain ⟨k, -, rfl⟩ := List.mem_map.mp hkeys
    rw [h.chunk, horder]
    split
    · exact window_of_length_le (Nat.zero_le _)
    · rfl
  have hsum : (s.warmupService.finished.map sizeTimesMinusOne).sum = 0 := by
    refine List.sum_eq_zero fun x hx => ?_
    obtain ⟨keys, hkeys, rfl⟩ := List.mem_map.mp hx
    rw [hempty keys (haccounts.submitted_of_finished hkeys)]
    decide
  have hcount : s.recCnt = 0 := by
    rw [hs.recCnt, ObjectRepository.countRecs, Store.COUNT_RECORDS, hrows, h.counts]
    decide
  have hnone : s.cluster.objects.rows = [] := by rw [hs.objects, hrows]
  refine ⟨?_, ?_, ?_⟩
  · rw [hnone]
    exact fun _ hr => nomatch hr
  · rw [hnone]
    exact fun _ hr => nomatch hr
  · rw [hcounted, hsum, hcount]
    rfl

end State

end AuroraSizing.Cache.WarmUp

import AuroraSizing.Cache.WarmUp
import AuroraSizing.Objects.MultiReads

/-!
# The warm-up from its beginning to its end

Each step of the loop and of the pool brings the end nearer, so the warm-up comes to an end if
`chunkCount` is small enough for `i`. What it has warmed up by then are the rows from the second
chunk on.
-/

namespace AuroraSizing.Cache.WarmUp

open Foundation.Bytes Foundation.System Foundation.Windows Foundation.WorkPool

/-! ## Calls in progress -/

/-- How many operations a `getFullObject` in this phase has left at most. -/
def operations : Phase → ℕ
  | .getFromNearCache => 5
  | .getFromRedis => 4
  | .getFromDB => 3
  | .setToRedis _ => 2
  | .setToNearCache _ => 1

theorem operations_pos (phase : Phase) : 0 < operations phase := by
  cases phase <;> exact Nat.succ_pos _

def phase (c : Cluster) (thread : ℕ) : Option Phase := (c.requests thread).map Request.phase

def pending (c : Cluster) (thread : ℕ) : ℕ := (phase c thread).elim 0 operations

section Calls

variable {jdk : Jdk} {malformed : Bytes → String} {c c' : Cluster} {thread : ℕ} {r : Request}
  {returned : Bool}

theorem requests_next_of_ne {t : ℕ} (ht : t ≠ thread) :
    (c.next jdk malformed thread r returned).requests t = c.requests t := by
  have hmoves := Cluster.moves_next jdk malformed c thread r returned
  generalize c.next jdk malformed thread r returned = c' at hmoves
  cases hmoves with
  | nearHit | readNone | cached | nearMiss | redisHit | redisMiss | read =>
      exact Function.update_of_ne ht _ _
  | stored =>
      refine (Function.update_of_ne ht _ _).trans ?_
      rw [Cluster.setToRedis_requests]

/-- The call goes on with fewer operations left, or it returns: without an object only if the
table has none for the key. -/
theorem next_cases (jdk : Jdk) (malformed : Bytes → String) (c : Cluster) (thread : ℕ)
    (r : Request) (returned : Bool) :
    (∃ r', (c.next jdk malformed thread r returned).requests thread = some r' ∧
      r'.key = r.key ∧ operations r'.phase < operations r.phase) ∨
    ((c.next jdk malformed thread r returned).requests thread = none ∧
      ∃ objectDTO uncached, (c.next jdk malformed thread r returned).answers =
        c.answers ++ [⟨r.key, Cache.reply objectDTO, uncached⟩] ∧
      (returned = true → objectDTO = none →
        ObjectRepository.getFullObject jdk c.objects r.key = none)) := by
  have hmoves := Cluster.moves_next jdk malformed c thread r returned
  generalize c.next jdk malformed thread r returned = c' at hmoves
  cases hmoves with
  | nearMiss hphase | redisHit hphase | redisMiss hphase | read hphase | stored hphase =>
      refine .inl ⟨_, Function.update_self .., rfl, ?_⟩
      simp [operations, hphase]
  | nearHit =>
      exact .inr ⟨Function.update_self .., _, _, rfl, fun _ hnone => nomatch hnone⟩
  | cached =>
      exact .inr ⟨Function.update_self .., _, _, rfl, fun _ hnone => nomatch hnone⟩
  | readNone _ hrow => exact .inr ⟨Function.update_self .., _, _, rfl, fun h _ => hrow h⟩

theorem pending_eq (hr : c.requests thread = some r) : pending c thread = operations r.phase := by
  rw [pending, phase, hr]
  rfl

theorem pending_next (jdk : Jdk) (malformed : Bytes → String) (returned : Bool)
    (hr : c.requests thread = some r) :
    pending (c.next jdk malformed thread r returned) thread < pending c thread := by
  rw [pending_eq hr]
  rcases next_cases jdk malformed c thread r returned with
    ⟨r', hr', -, hlt⟩ | ⟨hnone, -⟩
  · rwa [pending_eq hr']
  · rw [pending, phase, hnone]
    exact operations_pos r.phase

theorem phase_setRequest_of_ne {t : ℕ} {o : Option Request} (ht : t ≠ thread) :
    phase (c.setRequest thread o) t = phase c t := by
  have hrequests : (c.setRequest thread o).requests t = c.requests t :=
    Function.update_of_ne ht _ _
  rw [phase, hrequests, phase]

theorem phase_next_of_ne {t : ℕ} (ht : t ≠ thread) :
    phase (c.next jdk malformed thread r returned) t = phase c t := by
  rw [phase, requests_next_of_ne ht, phase]

/-- What happens elsewhere leaves the calls of the pool where they are. -/
theorem phase_of_outside {e : Cache.Event} (houtside : outside e = true)
    (hstep : c.step jdk malformed e = some c') {t : ℕ} (ht : t < 32) : phase c' t = phase c t := by
  cases e with
  | getFullObject thread server key =>
      have hle : 32 ≤ thread := of_decide_eq_true houtside
      simp only [Cluster.step] at hstep
      split at hstep
      · obtain rfl := Option.some.inj hstep
        exact phase_setRequest_of_ne (by omega)
      · cases hstep
  | next thread returned =>
      have hle : 32 ≤ thread := of_decide_eq_true houtside
      simp only [Cluster.step] at hstep
      split at hstep
      · obtain rfl := Option.some.inj hstep
        exact phase_next_of_ne (by omega)
      · cases hstep
  | commit objects =>
      obtain rfl := Option.some.inj hstep
      rw [phase, phase, Option.map_map]
      rfl
  | evictNear | evictRedis | replicate =>
      obtain rfl := Option.some.inj hstep
      rfl

end Calls

/-! ## The end -/

namespace State

variable {jdk : Jdk} {malformed : Bytes → String} {server : ℕ} {env : Surroundings}
  {s s' : State} {e : Event}

/-- `i` can go past the last chunk. -/
def Bounded (s : State) : Prop := (chunkCount s.recCnt).toInt < 2 ^ 31 - 1

def toAsk (s : State) : ℕ := ((chunkCount s.recCnt).toInt + 1 - s.i.toInt).toNat

/-- How many steps are left at most. A chunk has 100000 keys at most, each a call and its
operations. -/
def effort (s : State) : ℕ :=
  600003 * s.toAsk + s.warmupService.load 6 + ∑ thread : Fin 32, pending s.cluster thread

/-- A step of the loop or of the pool. -/
def own : Event → Bool
  | .other _ => false
  | _ => true

theorem recCnt_step (h : s.step jdk malformed server env e = some s') : s'.recCnt = s.recCnt := by
  cases moves_of_step h with
  | execute | take | threw | next | call | finish | other => rfl

theorem Bounded.step (hs : s.Bounded) (h : s.step jdk malformed server env e = some s') :
    s'.Bounded := by
  rw [Bounded, recCnt_step h]
  exact hs

theorem pending_call {c c' : Cluster} {thread server : ℕ} {key : String}
    (hidle : c.requests thread = none)
    (h : c.step jdk malformed (.getFullObject thread server key) = some c') :
    pending c thread = 0 ∧ pending c' thread = 5 ∧
      ∀ t, t ≠ thread → pending c' t = pending c t := by
  simp only [Cluster.step, hidle, Option.some.injEq] at h
  subst h
  refine ⟨?_, ?_, ?_⟩
  · rw [pending, phase, hidle]
    rfl
  · have hrequests : ∀ o, (c.setRequest thread o).requests thread = o :=
      fun o => Function.update_self ..
    exact pending_eq (hrequests _)
  · intro t ht
    rw [pending, phase_setRequest_of_ne ht, pending]

/-- Only the summand of one thread changes. -/
theorem sum_pending {c c' : Cluster} (thread : Fin 32)
    (h : ∀ t, t ≠ thread.val → pending c' t = pending c t) :
    ∑ t : Fin 32, pending c' t + pending c thread =
      ∑ t : Fin 32, pending c t + pending c' thread :=
  Pool.sum_add_eq_of_ne (w := thread) fun t ht => h t fun heq => ht (Fin.ext heq)

theorem sum_pending_next (jdk : Jdk) (malformed : Bytes → String) (returned : Bool) {c : Cluster}
    {thread : Fin 32} {r : Request} (hr : c.requests thread = some r) :
    ∑ t : Fin 32, pending (c.next jdk malformed thread r returned) t <
      ∑ t : Fin 32, pending c t := by
  have hothers : ∀ t, t ≠ thread.val →
      pending (c.next jdk malformed thread r returned) t = pending c t := by
    intro t ht
    rw [pending, phase_next_of_ne ht, pending]
  have hsum := sum_pending thread hothers
  have hlt := pending_next jdk malformed returned hr
  omega

theorem length_chunk_le (env : Surroundings) (k : ℕ) (table : ObjectsTable) (i : JInt) :
    (chunk env table k i).length ≤ 100000 := by
  have hlimit : chunkSize.toInt.toNat = 100000 := by decide
  have hle := (ObjectRepository.getObjKeys_sublist env k table chunkSize (i * chunkSize)).length_le
  rw [← hlimit]
  exact hle.trans length_window_le

theorem toAsk_execute (hs : s.Bounded) (hmore : more s.recCnt s.i = true) :
    ((chunkCount s.recCnt).toInt + 1 - (s.i + 1).toInt).toNat + 1 = s.toAsk := by
  have hle := more_iff.mp hmore
  have hlow : -2 ^ 31 ≤ s.i.toInt := BitVec.le_toInt s.i
  have hone : (1 : JInt).toInt = 1 := by decide
  have hsucc : (s.i + 1).toInt = s.i.toInt + 1 := by
    unfold Bounded at hs
    rw [BitVec.toInt_add, hone, Int.bmod_eq_of_le (by omega) (by omega)]
  rw [hsucc, toAsk]
  omega

theorem effort_step (hs : s.Bounded) (h : s.step jdk malformed server env e = some s') :
    (own e).toNat + s'.effort ≤ s.effort := by
  unfold effort
  cases moves_of_step h with
  | @execute pool hmore hsubmit =>
      have hload := Pool.load_step 6 hsubmit
      have hlength := length_chunk_le env s.warmupService.submitted.length s.cluster.objects
        s.i
      have htoAsk := toAsk_execute hs hmore
      simp only [Move.cost, Move.submits, List.map_singleton, List.sum_singleton] at hload
      simp only [own, Bool.toNat_true, toAsk] at htoAsk ⊢
      omega
  | take htake =>
      have hload := Pool.load_step 6 htake
      simp only [Move.cost, Move.submits, List.map_nil, List.sum_nil] at hload
      simp only [own, Bool.toNat_true, toAsk]
      omega
  | @threw thread returned r pool hrunning _ hdrop =>
      have hload := Pool.load_step 6 hdrop
      have hpending := sum_pending_next jdk malformed returned hrunning
      simp only [Move.cost, Move.submits, List.map_nil, List.sum_nil] at hload
      simp only [own, Bool.toNat_true, toAsk]
      omega
  | @next thread returned r _ _ hrunning =>
      have hpending := sum_pending_next jdk malformed returned hrunning
      simp only [own, Bool.toNat_true, toAsk]
      omega
  | call _ hidle hbegins hstart =>
      have hload := Pool.load_step 6 hstart
      obtain ⟨hbefore, hafter, hothers⟩ := pending_call hidle hbegins
      have hpending := sum_pending _ hothers
      simp only [Move.cost, Move.submits, List.map_nil, List.sum_nil] at hload
      simp only [own, Bool.toNat_true, toAsk]
      omega
  | finish _ _ hfinish =>
      have hload := Pool.load_step 6 hfinish
      simp only [Move.cost, Move.submits, List.map_nil, List.sum_nil] at hload
      simp only [own, Bool.toNat_true, toAsk]
      omega
  | @other _ cluster houtside hhappens =>
      have hpending : ∑ t : Fin 32, pending cluster t = ∑ t : Fin 32, pending s.cluster t :=
        Finset.sum_congr rfl fun t _ => by
          rw [pending, phase_of_outside houtside hhappens t.isLt, pending]
      simp only [own, Bool.toNat_false, toAsk]
      omega

/-- The loop and the pool take no more steps than that, whatever happens between them. -/
theorem countP_own_le {es : List Event} {t : State} (hs : s.Bounded)
    (hrun : run (State.step jdk malformed server env) s es = some t) :
    es.countP own + t.effort ≤ s.effort :=
  countP_run_le (fun _ _ _ hs hstep => hs.step hstep) (fun _ _ _ hs hstep => effort_step hs hstep)
    hs hrun

/-- A thread with a task can go on. -/
theorem exists_turn {thread : Fin 32} {job : Job String}
    (hjob : s.warmupService.workers thread = some job) :
    ∃ s', s.step jdk malformed server env (.turn thread true) = some s' := by
  cases hcall : s.cluster.requests thread with
  | some r =>
      simp only [step, turn, hjob, hcall]
      split
      · simp [Pool.step, hjob]
      · exact ⟨_, rfl⟩
  | none =>
      obtain ⟨keys, left⟩ := job
      cases left with
      | nil => simp [step, turn, hjob, hcall, Pool.step]
      | cons key left => simp [step, turn, hjob, hcall, Pool.step, Cluster.step]

/-- Until the warm-up is over, something of it can happen. -/
theorem exists_step (h : ¬ s.Finished) :
    ∃ e s', own e = true ∧ Undisturbed s e ∧ s.step jdk malformed server env e = some s' := by
  by_cases hmore : more s.recCnt s.i = true
  · refine ⟨.execute, ?_⟩
    simp [step, execute, hmore, Pool.step, own, Undisturbed]
  · by_cases hbusy : ∃ thread job, s.warmupService.workers thread = some job
    · obtain ⟨thread, job, hjob⟩ := hbusy
      obtain ⟨s', hs'⟩ := exists_turn hjob
      exact ⟨.turn thread true, s', rfl, trivial, hs'⟩
    · have hidle : ∀ thread, s.warmupService.workers thread = none := by
        intro thread
        cases hjob : s.warmupService.workers thread with
        | none => rfl
        | some job => exact absurd ⟨thread, job, hjob⟩ hbusy
      cases hqueue : s.warmupService.queue with
      | nil => exact absurd ⟨by simpa using hmore, hqueue, hidle⟩ h
      | cons keys queue =>
          refine ⟨.take 0, ?_⟩
          simp [step, Pool.step, hidle, hqueue, own, Undisturbed]

/-- From any state the warm-up can be brought to its end. -/
theorem exists_finished (hs : s.Bounded) :
    ∃ es t, Along (State.step jdk malformed server env) Undisturbed s es ∧
      run (State.step jdk malformed server env) s es = some t ∧ t.Finished := by
  induction heffort : s.effort using Nat.strongRecOn generalizing s with
  | _ n ih =>
      by_cases hfinished : s.Finished
      · exact ⟨[], s, trivial, rfl, hfinished⟩
      · obtain ⟨e, s', hown, hok, hstep⟩ := exists_step hfinished
        have hlt := effort_step hs hstep
        rw [hown, Bool.toNat_true] at hlt
        obtain ⟨es, t, hrest, hrun, ht⟩ := ih s'.effort (by omega) (hs.step hstep) rfl
        exact ⟨e :: es, t, hrest.cons hok hstep, run_cons_eq_some.mpr ⟨s', hstep, hrun⟩, ht⟩

end State

section Steady

variable {jdk : Jdk} {malformed : Bytes → String} {server : ℕ} {env : Surroundings} {c : Cluster}
  {order : List ObjectRow} {es : List Event} {t : State}

/-- However the warm-up comes to its end, everything is warm exactly if there is nothing. -/
theorem warm_iff_of_finished (h : env.Steady c.objects order)
    (hok : Along (State.step jdk malformed server env) Undisturbed (.start env c) es)
    (hrun : run (State.step jdk malformed server env) (.start env c) es = some t)
    (hfinished : t.Finished) : t.Warm ↔ c.objects.rows = [] := by
  have hasked := State.asked_of_run hok hrun
  constructor
  · intro hwarm
    by_contra hrows
    exact hasked.not_warm h hrows hfinished hwarm
  · intro hrows
    exact hasked.warm h hrows (State.accounts_of_run Worth.jobs hrun) (State.counted_of_run hrun)

/-- **The warm-up warms the table up exactly if it has no rows**: the first chunk asked for is the
one at offset `chunkSize`. -/
theorem warmsUp_iff (jdk : Jdk) (malformed : Bytes → String) (server : ℕ) (env : Surroundings)
    (c : Cluster) (order : List ObjectRow) (h : env.Steady c.objects order) :
    WarmsUp jdk malformed server env c ↔ c.objects.rows = [] := by
  constructor
  · intro hwarms
    obtain ⟨es, t, hok, hrun, hfinished⟩ := hwarms.ends
    exact (warm_iff_of_finished h hok hrun hfinished).mp (hwarms.warm es t hok hrun hfinished)
  · intro hrows
    have hbounded : (State.start env c).Bounded := by
      have hcount := h.toInt_chunkCount
      rw [hrows] at hcount
      rw [State.Bounded]
      show (chunkCount (ObjectRepository.countRecs env c.objects)).toInt < _
      rw [hcount]
      decide
    exact ⟨State.exists_finished hbounded, fun es t hok hrun hfinished =>
      (warm_iff_of_finished h hok hrun hfinished).mpr hrows⟩

end Steady

/-! ## What has been warmed up -/

/-- The name of a row. -/
def Named (table : ObjectsTable) (key : String) : Prop := ∃ r ∈ table.rows, r.name = key

/-- The pool calls `getFullObject` for names of rows, and no call of it has thrown. -/
structure Calling (table : ObjectsTable) (s : State) : Prop where
  objects : s.cluster.objects = table
  keys : s.warmupService.All (Named table)
  requests : ∀ thread < 32, ∀ r, s.cluster.requests thread = some r → Named table r.key
  dropped : s.warmupService.dropped = []

section Calling

variable {jdk : Jdk} {malformed : Bytes → String} {server : ℕ} {env : Surroundings} {c : Cluster}
  {table : ObjectsTable} {order : List ObjectRow} {s s' t : State} {e : Event} {es : List Event}

theorem named_of_mem_chunk {k : ℕ} {i : JInt} {key : String} (h : key ∈ chunk env table k i) :
    Named table key := by
  have hwindow := (ObjectRepository.getObjKeys_sublist env k table _ _).subset h
  obtain ⟨j, -, -, hj⟩ := mem_window_iff.mp hwindow
  obtain ⟨r, hr, rfl⟩ := List.mem_map.mp (List.mem_of_getElem? hj)
  exact ⟨r, (env.perm k table).mem_iff.mp hr, rfl⟩

/-- A row under its lower-case name is found. -/
theorem getFullObject_of_named (hlower : LowerNames jdk table.rows) {key : String}
    (h : Named table key) : ObjectRepository.getFullObject jdk table key ≠ none := by
  obtain ⟨r, hr, rfl⟩ := h
  intro hnone
  rw [ObjectRepository.getFullObject, Option.map_eq_none_iff, Store.GET_FULL_OBJECT,
    Foundation.KeyedRows.lookup, List.find?_eq_none] at hnone
  exact hnone r hr (decide_eq_true (hlower r hr))

/-- A call for the name of a row does not throw. -/
theorem threw_eq_false {r : Request} {thread : ℕ}
    (hfound : ObjectRepository.getFullObject jdk c.objects r.key ≠ none) :
    threw (c.next jdk malformed thread r true) thread = false := by
  rcases next_cases jdk malformed c thread r true with
    ⟨r', hr', -⟩ | ⟨hnone, objectDTO, uncached, hanswers, hmissing⟩
  · rw [threw, hr']
  · rw [threw, hnone, hanswers, List.getLast?_append, List.getLast?_singleton]
    cases objectDTO with
    | some d => rfl
    | none => exact absurd (hmissing rfl rfl) hfound

theorem calling_start (hfresh : ∀ thread < 32, c.requests thread = none) :
    Calling c.objects (.start env c) where
  objects := rfl
  keys := Pool.all_idle _
  requests thread hthread r hr := by
    rw [State.start, hfresh thread hthread] at hr
    cases hr
  dropped := rfl

theorem Calling.step (h : Calling table s) (hlower : LowerNames jdk table.rows)
    (hok : Undisturbed s e) (hstep : s.step jdk malformed server env e = some s') :
    Calling table s' := by
  have hobjects := (State.objects_of_undisturbed hok hstep).1.trans h.objects
  cases State.moves_of_step hstep with
  | execute _ hsubmit =>
      refine ⟨hobjects, h.keys.step ?_ hsubmit, h.requests, ?_⟩
      · rw [h.objects]
        rintro keys hkeys key hkey
        rw [List.mem_singleton.mp hkeys] at hkey
        exact named_of_mem_chunk hkey
      · rw [Pool.dropped_step hsubmit, h.dropped]
        rfl
  | take hpool | finish _ _ hpool =>
      refine ⟨hobjects, h.keys.step (fun _ hnone => absurd hnone List.not_mem_nil) hpool,
        h.requests, ?_⟩
      rw [Pool.dropped_step hpool, h.dropped]
      rfl
  | @threw thread returned r _ hrunning hthrew =>
      cases returned with
      | false => exact hok.elim
      | true =>
          have hfound := getFullObject_of_named hlower
            (h.requests thread thread.isLt r hrunning)
          rw [← h.objects] at hfound
          rw [threw_eq_false hfound] at hthrew
          cases hthrew
  | @next thread returned r _ _ hrunning =>
      refine ⟨hobjects, h.keys, ?_, h.dropped⟩
      intro t ht r' hr'
      obtain ⟨r₀, hr₀, -, hkey⟩ := Cluster.requests_next hrunning hr'
      rw [← hkey]
      exact h.requests t ht r₀ hr₀
  | @call thread _ keys left key cluster _ hjob _ hbegins hstart =>
      refine ⟨hobjects, h.keys.step (fun _ hnone => absurd hnone List.not_mem_nil) hstart,
        ?_, ?_⟩
      · intro t ht r' hr'
        rcases Cluster.requests_step hbegins hr' with heq | ⟨-, r₀, hr₀, -, hkey⟩
        · cases heq
          exact h.keys.workers thread _ hjob _ (List.mem_cons_self ..)
        · rw [← hkey]
          exact h.requests t ht r₀ hr₀
      · rw [Pool.dropped_step hstart, h.dropped]
        rfl
  | @other _ cluster houtside hhappens =>
      refine ⟨hobjects, h.keys, ?_, h.dropped⟩
      intro t ht r' hr'
      rcases Cluster.requests_step hhappens hr' with rfl | ⟨-, r₀, hr₀, -, hkey⟩
      · exact absurd (of_decide_eq_true houtside) (Nat.not_le.mpr ht)
      · rw [← hkey]
        exact h.requests t ht r₀ hr₀

/-! ## The sizes subtracted -/

theorem sizeTimesMinusOne_eq {keys : List String} (h : keys.length ≤ 100000) :
    sizeTimesMinusOne keys = -BitVec.ofNat 64 keys.length := by
  apply BitVec.eq_of_toInt_eq
  have hneg : (BitVec.ofNat 32 keys.length * -1).toInt = -(keys.length : ℤ) := by
    rw [BitVec.toInt_mul, toInt_ofNat_of_lt (by omega)]
    have hone : (-1 : JInt).toInt = -1 := by decide
    rw [hone, Int.bmod_eq_of_le (by omega) (by omega)]
    omega
  have hpos : (BitVec.ofNat 64 keys.length).toInt = keys.length :=
    toInt_ofNat_of_lt (by omega)
  rw [sizeTimesMinusOne, BitVec.toInt_signExtend_of_le (by decide), hneg, BitVec.toInt_neg, hpos,
    Int.bmod_eq_of_le (by omega) (by omega)]

theorem sum_sizes {chunks : List (List String)} (h : ∀ keys ∈ chunks, keys.length ≤ 100000) :
    (chunks.map sizeTimesMinusOne).sum = -BitVec.ofNat 64 chunks.flatten.length := by
  induction chunks with
  | nil => rfl
  | cons keys chunks ih =>
      rw [List.map_cons, List.sum_cons, sizeTimesMinusOne_eq (h keys (List.mem_cons_self ..)),
        ih fun k hk => h k (List.mem_cons_of_mem _ hk), List.flatten_cons, List.length_append,
        BitVec.ofNat_add, neg_add]

theorem State.Asked.flatten (hs : State.Asked env table s) (h : env.Steady table order)
    (hlength : table.rows.length < 2147400000) (hfinished : s.Finished) :
    s.warmupService.submitted.flatten = (order.drop 100000).map ObjectRow.name := by
  have hcount := h.toInt_chunkCount
  rw [← hs.recCnt, if_pos (by omega)] at hcount
  have hasked := State.asked_of_finished hs hfinished (by omega)
  rw [hcount] at hasked
  have hchunks : s.warmupService.submitted = (List.range s.asked).map fun k =>
      window 100000 (order.map ObjectRow.name) (100000 + 100000 * k) := by
    rw [hs.chunks]
    refine List.map_congr_left fun k hk => ?_
    have hlt := List.mem_range.mp hk
    have hoffset := toInt_offset (j := k + 1) (by omega)
    have hnat : (100000 * ((k + 1 : ℕ) : ℤ)).toNat = 100000 + 100000 * k := by omega
    rw [h.chunk, if_pos (by omega), hoffset, hnat]
  rw [hchunks, flatten_windows, List.map_drop]
  refine List.take_of_length_le ?_
  rw [List.length_drop, List.length_map, h.perm.length_eq]
  omega

/-- **What is warmed up in the end** are the rows from the second chunk on. -/
theorem warms_from_second_chunk (h : env.Steady c.objects order)
    (hlower : LowerNames jdk c.objects.rows) (hlength : c.objects.rows.length < 2147400000)
    (hfresh : ∀ thread < 32, c.requests thread = none)
    (hok : Along (State.step jdk malformed server env) Undisturbed (.start env c) es)
    (hrun : run (State.step jdk malformed server env) (.start env c) es = some t)
    (hfinished : t.Finished) :
    t.warmupService.started.Perm ((order.drop 100000).map ObjectRow.name) ∧
      t.remainingRecCCnt.toInt = min c.objects.rows.length 100000 := by
  have hasked := State.asked_of_run hok hrun
  have hflatten := hasked.flatten h hlength hfinished
  have hcalling : Calling c.objects t :=
    run_invariant (fun _ _ _ hs hok hstep => hs.step hlower hok hstep) (calling_start hfresh) hok
      hrun
  constructor
  · rw [← hflatten]
    exact Pool.started_perm (State.accounts_of_run Worth.items hrun) hfinished.2 hcalling.dropped
  · have hperm := Pool.finished_perm (State.accounts_of_run Worth.jobs hrun) hfinished.2
      hcalling.dropped
    have hsizes : ∀ keys ∈ t.warmupService.submitted, keys.length ≤ 100000 := by
      intro keys hkeys
      rw [hasked.chunks] at hkeys
      obtain ⟨k, -, rfl⟩ := List.mem_map.mp hkeys
      exact State.length_chunk_le env k c.objects _
    have hcount : t.recCnt = BitVec.ofNat 64 c.objects.rows.length := by
      rw [hasked.recCnt, ObjectRepository.countRecs, Store.COUNT_RECORDS, if_pos (by omega),
        h.counts]
    have hremaining := State.counted_of_run hrun
    rw [State.Counted, (hperm.map sizeTimesMinusOne).sum_eq, sum_sizes hsizes, hflatten, hcount,
      List.length_map, List.length_drop, h.perm.length_eq, ← sub_eq_add_neg,
      BitVec.ofNat_sub_ofNat_of_le _ _ (by omega) (by omega)] at hremaining
    rw [hremaining, toInt_ofNat_of_lt (by omega)]
    omega

end Calling

/-! ## No object, and one -/

/-- A database that sees the rows in the order of the table and never fails. -/
def calm : Surroundings where
  countRaises := false
  order _ table := table.rows
  perm _ _ := .refl _
  raises _ := none

theorem calm_steady (table : ObjectsTable) : calm.Steady table table.rows where
  counts := rfl
  order _ := rfl
  raises _ := rfl

theorem empty_warmsUp : WarmsUp Jdk.ascii (fun _ => "") 0 calm (.start .empty) :=
  (warmsUp_iff Jdk.ascii (fun _ => "") 0 calm (.start .empty) [] (calm_steady .empty)).mpr rfl

/-- One chunk is asked for, at offset 100000. -/
def oneChunk : List Event := [.execute, .take 0, .turn 0 true]

def oneObject : ObjectsTable where
  rows := [MultiReads.smallRow "a" []]
  objectTypeidName := List.nodup_singleton _
  objectLowerName := List.nodup_singleton _
  objectName := List.nodup_singleton _

theorem one_object_stays_cold :
    calm.Steady oneObject oneObject.rows ∧
    (∃ t, run (State.step Jdk.ascii (fun _ => "") 0 calm) (.start calm (.start oneObject))
        oneChunk = some t ∧
      t.Finished ∧ t.recCnt = 1 ∧ t.warmupService.submitted = [[]] ∧
      t.warmupService.started = [] ∧ t.remainingRecCCnt = 1) ∧
    ¬ WarmsUp Jdk.ascii (fun _ => "") 0 calm (.start oneObject) := by
  have hrun : ∃ t, run (State.step Jdk.ascii (fun _ => "") 0 calm)
        (.start calm (.start oneObject)) oneChunk = some t ∧
      t.Finished ∧ t.recCnt = 1 ∧ t.warmupService.submitted = [[]] ∧
      t.warmupService.started = [] ∧ t.remainingRecCCnt = 1 := by
    refine ⟨_, rfl, ⟨?_, ?_, ?_⟩, ?_, ?_, ?_, ?_⟩
    all_goals decide +kernel
  refine ⟨calm_steady _, hrun, ?_⟩
  intro hwarms
  obtain ⟨t, hrun, hfinished, -, -, -, hremaining⟩ := hrun
  have hok : Along (State.step Jdk.ascii (fun _ => "") 0 calm) Undisturbed
      (.start calm (.start oneObject)) oneChunk :=
    Along.of_forall (by simp [oneChunk, Undisturbed]) _
  have hzero := (hwarms.warm oneChunk t hok hrun hfinished).remaining
  rw [hremaining] at hzero
  cases hzero

end AuroraSizing.Cache.WarmUp

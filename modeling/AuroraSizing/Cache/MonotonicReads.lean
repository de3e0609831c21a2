import AuroraSizing.Cache.Coherence

/-!
# Monotonic reads

Versions count the commits that changed a key's object. A `Traced` cluster runs as the
cluster does and notes beside it which version is in which place; nothing the cluster
does depends on these notes, and `tagged_of_run` says that they are right.

An instance goes back to an older version through two doors only. It reads one from
Redis, where the first object ever stored stays; or a call that had the older one in
hand puts it into the near cache over the newer.
-/

namespace AuroraSizing.Cache

open Foundation.System Foundation.Utf8

/-- A `getFullObject` that returned an object. -/
structure Reading where
  server : ℕ
  key : String
  /-- The newest version the server had returned for the key when the call began. -/
  floor : ℕ
  version : ℕ
  objectDTO : ObjectDTO
deriving DecidableEq

open Cluster (Place Source)

structure Traced where
  cluster : Cluster
  /-- The version of the key's object in the table. -/
  current : String → ℕ
  /-- The object at each version. -/
  object : String → ℕ → Option ObjectDTO
  /-- The version of what is in a place, if anything is. -/
  version : Place → ℕ
  /-- The newest version a server has returned for a key. -/
  returned : ℕ → String → ℕ
  /-- What `returned` was when the thread's call began. -/
  floor : ℕ → ℕ
  readings : List Reading

namespace Traced

def start (jdk : Jdk) (objects : ObjectsTable) : Traced where
  cluster := .start objects
  current := fun _ => 0
  object := fun key n => if n = 0 then ObjectRepository.getFullObject jdk objects key else none
  version := fun _ => 0
  returned := fun _ _ => 0
  floor := fun _ => 0
  readings := []

/-- The answer a call ends with at this event. -/
def reading? (t : Traced) : Event → Option Reading
  | .next thread _ =>
      match t.cluster.requests thread with
      | some r =>
          match r.phase, t.cluster.objMapCache r.server r.key with
          | .getFromNearCache, some d =>
              some ⟨r.server, r.key, t.floor thread, t.version (.near r.server r.key), d⟩
          | .setToNearCache d, _ =>
              some ⟨r.server, r.key, t.floor thread, t.version (.hand thread r.server), d⟩
          | _, _ => none
      | none => none
  | .getFullObject _ _ _ | .commit _ | .evictNear _ _ | .evictRedis _ | .replicate _ => none

def sourceVersion (t : Traced) : Source → ℕ
  | .place p => t.version p
  | .table key => t.current key

/-- The version of the key's object in the table of `c`. -/
def currentAfter (jdk : Jdk) (t : Traced) (c : Cluster) (key : String) : ℕ :=
  if ObjectRepository.getFullObject jdk c.objects key =
      ObjectRepository.getFullObject jdk t.cluster.objects key then t.current key
  else t.current key + 1

def versionAfter (t : Traced) (e : Event) : Place → ℕ :=
  match t.cluster.flow e with
  | some (p, source) => Function.update t.version p (t.sourceVersion source)
  | none => t.version

def returnedAfter (t : Traced) (e : Event) : ℕ → String → ℕ :=
  match t.reading? e with
  | some a => Function.update t.returned a.server
      (Function.update (t.returned a.server) a.key (max (t.returned a.server a.key) a.version))
  | none => t.returned

def floorAfter (t : Traced) : Event → ℕ → ℕ
  | .getFullObject thread server key => Function.update t.floor thread (t.returned server key)
  | .next _ _ | .commit _ | .evictNear _ _ | .evictRedis _ | .replicate _ => t.floor

/-- The notes after an event that leaves the cluster in `c`. -/
def after (jdk : Jdk) (t : Traced) (e : Event) (c : Cluster) : Traced where
  cluster := c
  current := t.currentAfter jdk c
  object := fun key n =>
    if n = t.currentAfter jdk c key then ObjectRepository.getFullObject jdk c.objects key
    else t.object key n
  version := t.versionAfter e
  returned := t.returnedAfter e
  floor := t.floorAfter e
  readings := t.readings ++ (t.reading? e).toList

def step (jdk : Jdk) (malformed : Bytes → String) (t : Traced) (e : Event) : Option Traced :=
  (t.cluster.step jdk malformed e).map (t.after jdk e)

variable {jdk : Jdk} {malformed : Bytes → String}

theorem step_eq_some {t t' : Traced} {e : Event} :
    t.step jdk malformed e = some t' ↔
      ∃ c, t.cluster.step jdk malformed e = some c ∧ t.after jdk e c = t' :=
  Option.map_eq_some_iff

/-- The notes do not get in the way of the cluster. -/
theorem exists_run {t : Traced} {c : Cluster} {es : List Event}
    (hrun : run (Cluster.step jdk malformed) t.cluster es = some c) :
    ∃ t', run (step jdk malformed) t es = some t' ∧ t'.cluster = c := by
  induction es generalizing t with
  | nil => exact ⟨t, rfl, run_nil_eq_some.mp hrun⟩
  | cons e es ih =>
      obtain ⟨c', hc', hrest⟩ := run_cons_eq_some.mp hrun
      obtain ⟨t', ht', heq⟩ := ih (t := t.after jdk e c') hrest
      refine ⟨t', run_cons_eq_some.mpr ⟨_, step_eq_some.mpr ⟨c', hc', rfl⟩, ht'⟩, heq⟩

/-! ## The notes are right -/

/-- The place an answer comes from. -/
theorem reading_held (malformed : Bytes → String) {t : Traced} {e : Event} {a : Reading}
    (h : t.reading? e = some a) :
    ∃ p thread r returned, e = .next thread returned ∧ t.cluster.requests thread = some r ∧
      r.server = a.server ∧ r.key = a.key ∧ a.floor = t.floor thread ∧
      (p = .near a.server a.key ∨
        p = .hand thread a.server ∧ t.cluster.flow e = some (.near a.server a.key, .place p)) ∧
      t.cluster.HeldAt malformed p a.key a.objectDTO ∧ a.version = t.version p := by
  cases e with
  | next thread returned =>
      simp only [reading?] at h
      split at h
      · rename_i r hr
        split at h
        · rename_i d _ hentry
          obtain rfl := Option.some.inj h
          exact ⟨_, thread, r, returned, rfl, hr, rfl, rfl, rfl, .inl rfl, .near hentry, rfl⟩
        · rename_i d hphase
          obtain rfl := Option.some.inj h
          have hflow : t.cluster.flow (.next thread returned) =
              some (.near r.server r.key, .place (.hand thread r.server)) := by
            simp only [Cluster.flow, hr, hphase]
          exact ⟨_, thread, r, returned, rfl, hr, rfl, rfl, rfl, .inr ⟨rfl, hflow⟩,
            .hand hr (by rw [hphase]; rfl), rfl⟩
        · cases h
      · cases h
  | getFullObject | commit | evictNear | evictRedis | replicate => cases h

theorem versionAfter_of_flow {t : Traced} {e : Event} {p : Place} {source : Source}
    (h : t.cluster.flow e = some (p, source)) : t.versionAfter e p = t.sourceVersion source := by
  rw [versionAfter, h]
  exact Function.update_self _ _ _

theorem versionAfter_of_not {t : Traced} {e : Event} {p : Place}
    (h : ∀ source, t.cluster.flow e ≠ some (p, source)) : t.versionAfter e p = t.version p := by
  unfold versionAfter
  cases hflow : t.cluster.flow e with
  | some filled =>
      obtain ⟨q, source⟩ := filled
      apply Function.update_of_ne
      rintro rfl
      exact h source hflow
  | none => rfl

theorem current_le (t : Traced) (c : Cluster) (key : String) :
    t.current key ≤ t.currentAfter jdk c key := by
  unfold currentAfter
  split
  · exact Nat.le_refl _
  · exact Nat.le_succ _

/-- What is noted of a place, of a key and of an answer. -/
structure Tagged (jdk : Jdk) (malformed : Bytes → String) (t : Traced) : Prop where
  current : ∀ key, t.object key (t.current key) =
    ObjectRepository.getFullObject jdk t.cluster.objects key
  held : ∀ p key d, t.cluster.HeldAt malformed p key d →
    t.version p ≤ t.current key ∧ t.object key (t.version p) = some d
  readings : ∀ a ∈ t.readings,
    a.version ≤ t.current a.key ∧ t.object a.key a.version = some a.objectDTO

theorem tagged_start (objects : ObjectsTable) : Tagged jdk malformed (start jdk objects) where
  current _ := rfl
  held p _ _ h := absurd (Cluster.holds_iff.mpr ⟨p, h⟩) Cluster.not_holds_start
  readings _ ha := absurd ha List.not_mem_nil

/-- An older version stays what it was. -/
theorem Tagged.object_after {t : Traced} (h : Tagged jdk malformed t) (e : Event) (c : Cluster)
    {key : String} {n : ℕ} (hn : n ≤ t.current key) :
    (t.after jdk e c).object key n = t.object key n := by
  show (if n = t.currentAfter jdk c key then _ else _) = _
  split
  · rename_i heq
    subst heq
    unfold currentAfter at hn ⊢
    split at hn
    · rename_i hsame
      rw [if_pos hsame, hsame, h.current]
    · omega
  · rfl

theorem tagged_step {t t' : Traced} {e : Event} (h : Tagged jdk malformed t)
    (hstep : t.step jdk malformed e = some t') : Tagged jdk malformed t' := by
  obtain ⟨c, hc, rfl⟩ := step_eq_some.mp hstep
  -- what is noted of an older version goes on to hold
  have hkeep : ∀ {key : String} {n : ℕ} {d : ObjectDTO},
      n ≤ t.current key ∧ t.object key n = some d →
        n ≤ (t.after jdk e c).current key ∧ (t.after jdk e c).object key n = some d := by
    rintro key n d ⟨hle, hd⟩
    exact ⟨Nat.le_trans hle (current_le t c key), (h.object_after e c hle).trans hd⟩
  refine ⟨?_, ?_, ?_⟩
  · intro key
    exact if_pos rfl
  · intro p key d hheld
    rcases Cluster.heldAt_step hc hheld with ⟨source, hflow, hgives⟩ | ⟨hnot, hbefore⟩
    · have hversion : (t.after jdk e c).version p = t.sourceVersion source :=
        versionAfter_of_flow hflow
      rw [hversion]
      apply hkeep
      cases source with
      | place q => exact h.held q key d hgives
      | table k =>
          obtain ⟨rfl, _, _, _, _, _, _, hrow⟩ := hgives
          exact ⟨Nat.le_refl _, (h.current k).trans hrow⟩
    · have hversion : (t.after jdk e c).version p = t.version p := versionAfter_of_not hnot
      rw [hversion]
      exact hkeep (h.held p key d hbefore)
  · intro a ha
    apply hkeep
    rcases List.mem_append.mp ha with hold | hnew
    · exact h.readings a hold
    · rw [Option.mem_toList] at hnew
      obtain ⟨p, _, _, _, _, _, _, _, _, _, hheld, hversion⟩ :=
        reading_held malformed hnew
      rw [hversion]
      exact h.held p a.key a.objectDTO hheld

theorem tagged_of_run {objects : ObjectsTable} {es : List Event} {t : Traced}
    (hrun : run (step jdk malformed) (start jdk objects) es = some t) :
    Tagged jdk malformed t :=
  run_preserves (fun _ _ _ h hstep => tagged_step h hstep) (tagged_start objects) hrun

/-! ## Monotonic reads -/

/-- Neither door is open at this event: the server's calls for the key find nothing in Redis
older than what the server has returned, and nothing older than an answer is in another
call's hands when the answer is given. -/
structure Fresh (malformed : Bytes → String) (server : ℕ) (key : String) (t : Traced)
    (e : Event) : Prop where
  redis : ∀ thread r, e = .next thread true → t.cluster.requests thread = some r →
    r.server = server → r.key = key → r.phase = .getFromRedis →
    ∀ d, t.cluster.HeldAt malformed (.replica (encode key)) key d →
      t.returned server key ≤ t.version (.replica (encode key))
  hand : ∀ a, t.reading? e = some a → a.server = server → a.key = key →
    ∀ thread d, t.cluster.HeldAt malformed (.hand thread server) key d →
      a.version ≤ t.version (.hand thread server)

/-- Where a server has what its calls for a key return. -/
def Own (server : ℕ) (key : String) (p : Place) : Prop :=
  p = .near server key ∨ ∃ thread, p = .hand thread server

structure Monotone (malformed : Bytes → String) (server : ℕ) (key : String) (t : Traced) :
    Prop where
  current : t.returned server key ≤ t.current key
  own : ∀ p d, Own server key p → t.cluster.HeldAt malformed p key d →
    t.returned server key ≤ t.version p
  floor : ∀ thread r, t.cluster.requests thread = some r → r.server = server → r.key = key →
    t.floor thread ≤ t.returned server key
  readings : ∀ a ∈ t.readings, a.server = server → a.key = key → a.floor ≤ a.version

theorem monotone_start {server : ℕ} {key : String} (objects : ObjectsTable) :
    Monotone malformed server key (start jdk objects) where
  current := Nat.le_refl 0
  own _ _ _ _ := Nat.zero_le _
  floor _ _ _ _ _ := Nat.le_refl 0
  readings _ ha := absurd ha List.not_mem_nil

/-- Where a flow into an own place comes from. -/
theorem flow_own {c : Cluster} {e : Event} {p : Place} {source : Source} {server : ℕ}
    {key : String} {d : ObjectDTO} (hown : Own server key p)
    (hflow : c.flow e = some (p, source))
    (hgives : source.Gives jdk malformed c e key d) :
    (∃ thread, source = .place (.hand thread server)) ∨ source = .table key ∨
      ∃ thread r, e = .next thread true ∧ c.requests thread = some r ∧ r.server = server ∧
        r.key = key ∧ r.phase = .getFromRedis ∧ source = .place (.replica (encode key)) := by
  cases e with
  | next thread returned =>
      simp only [Cluster.flow] at hflow
      split at hflow
      · rename_i r hr
        split at hflow
        · rename_i hphase
          cases hflow
          obtain rfl : server = r.server := by
            rcases hown with hp | ⟨_, hp⟩
            · cases hp
            · exact (Place.hand.inj hp).2.symm
          obtain rfl : r.key = key := Cluster.HeldAt.key_of_replica hgives
          exact .inr (.inr ⟨thread, r, rfl, hr, rfl, rfl, hphase, rfl⟩)
        · cases hflow
          exact .inr (.inl (congrArg Source.table hgives.1))
        · split at hflow
          · cases hflow
            rcases hown with hp | ⟨_, hp⟩
            · cases hp
            · cases hp
          · cases hflow
        · cases hflow
          rcases hown with hp | ⟨_, hp⟩
          · cases hp
            exact .inl ⟨thread, rfl⟩
          · cases hp
        · cases hflow
      · cases hflow
  | replicate field =>
      cases hflow
      rcases hown with hp | ⟨_, hp⟩
      · cases hp
      · cases hp
  | getFullObject | commit | evictNear | evictRedis => cases hflow

section Monotone

variable {t t' : Traced} {e : Event} {server : ℕ} {key : String}

theorem returned_le_after (t : Traced) (e : Event) (server : ℕ) (key : String) :
    t.returned server key ≤ t.returnedAfter e server key := by
  unfold returnedAfter
  cases t.reading? e with
  | some a =>
      show _ ≤ Function.update t.returned a.server _ server key
      by_cases hserver : server = a.server
      · subst hserver
        rw [Function.update_self]
        by_cases hkey : key = a.key
        · subst hkey
          rw [Function.update_self]
          exact Nat.le_max_left _ _
        · rw [Function.update_of_ne hkey]
      · rw [Function.update_of_ne hserver]
  | none => exact Nat.le_refl _

theorem returnedAfter_le {n : ℕ} (hn : t.returned server key ≤ n)
    (hreading : ∀ a, t.reading? e = some a → a.server = server → a.key = key → a.version ≤ n) :
    t.returnedAfter e server key ≤ n := by
  unfold returnedAfter
  cases ha : t.reading? e with
  | some a =>
      show Function.update t.returned a.server _ server key ≤ n
      by_cases hserver : server = a.server
      · subst hserver
        rw [Function.update_self]
        by_cases hkey : key = a.key
        · subst hkey
          rw [Function.update_self]
          exact Nat.max_le.mpr ⟨hn, hreading a ha rfl rfl⟩
        · rwa [Function.update_of_ne hkey]
      · rwa [Function.update_of_ne hserver]
  | none => exact hn

/-- What is in an own place is no older than any answer, this event's too. -/
theorem own_step (htagged : Tagged jdk malformed t) (h : Monotone malformed server key t)
    (hfresh : Fresh malformed server key t e) {c : Cluster}
    (hc : t.cluster.step jdk malformed e = some c) {p : Place} {d : ObjectDTO}
    (hown : Own server key p) (hheld : c.HeldAt malformed p key d) :
    t.returnedAfter e server key ≤ t.versionAfter e p := by
  rcases Cluster.heldAt_step hc hheld with ⟨source, hflow, hgives⟩ | ⟨hnot, hbefore⟩
  · rw [versionAfter_of_flow hflow]
    rcases flow_own hown hflow hgives with ⟨thread, rfl⟩ | rfl | ⟨thread, r, rfl, hr, hrest⟩
    · apply returnedAfter_le (h.own _ d (.inr ⟨thread, rfl⟩) hgives)
      intro a ha hserver hkey
      exact hfresh.hand a ha hserver hkey thread d hgives
    · apply returnedAfter_le h.current
      rintro a ha - rfl
      obtain ⟨q, _, _, _, _, _, _, _, _, _, hq, hversion⟩ :=
        reading_held malformed ha
      rw [hversion]
      exact (htagged.held q a.key a.objectDTO hq).1
    · obtain ⟨hserver, hkey, hphase, rfl⟩ := hrest
      apply returnedAfter_le (hfresh.redis thread r rfl hr hserver hkey hphase d hgives)
      intro a ha
      simp only [reading?, hr, hphase] at ha
      cases ha
  · rw [versionAfter_of_not hnot]
    apply returnedAfter_le (h.own p d hown hbefore)
    rintro a ha rfl rfl
    rcases hown with rfl | ⟨thread, rfl⟩
    · obtain ⟨q, _, _, _, _, _, _, _, _, hq, _, hversion⟩ :=
        reading_held malformed ha
      rcases hq with rfl | ⟨_, hflow⟩
      · exact Nat.le_of_eq hversion
      · exact absurd hflow (hnot _)
    · exact hfresh.hand a ha rfl rfl thread d hbefore

theorem monotone_step (htagged : Tagged jdk malformed t) (h : Monotone malformed server key t)
    (hfresh : Fresh malformed server key t e) (hstep : t.step jdk malformed e = some t') :
    Monotone malformed server key t' := by
  obtain ⟨c, hc, rfl⟩ := step_eq_some.mp hstep
  have hmono := returned_le_after t e server key
  refine ⟨?_, ?_, ?_, ?_⟩
  · refine Nat.le_trans ?_ (current_le t c key)
    apply returnedAfter_le h.current
    rintro a ha - rfl
    obtain ⟨q, _, _, _, _, _, _, _, _, _, hq, hversion⟩ :=
      reading_held malformed ha
    rw [hversion]
    exact (htagged.held q a.key a.objectDTO hq).1
  · intro p d hown hheld
    exact own_step htagged h hfresh hc hown hheld
  · rintro thread r hr rfl rfl
    refine Nat.le_trans ?_ hmono
    rcases Cluster.requests_step hc hr with rfl | ⟨hother, r₀, hr₀, hserver, hkey⟩
    · exact Nat.le_of_eq (Function.update_self _ _ _)
    · have hfloor : t.floorAfter e thread = t.floor thread := by
        cases e with
        | getFullObject thread' server' key' =>
            apply Function.update_of_ne
            rintro rfl
            exact hother server' key' rfl
        | next | commit | evictNear | evictRedis | replicate => rfl
      show t.floorAfter e thread ≤ _
      rw [hfloor]
      exact h.floor thread r₀ hr₀ hserver hkey
  · intro a ha hserver hkey
    rcases List.mem_append.mp ha with hold | hnew
    · exact h.readings a hold hserver hkey
    · rw [Option.mem_toList] at hnew
      obtain ⟨q, thread, r, _, rfl, hr, hrserver, hrkey, hfloor, hq, hheld, hversion⟩ :=
        reading_held malformed hnew
      subst hserver
      subst hkey
      have hown : Own a.server a.key q := by
        rcases hq with hq | ⟨hq, _⟩
        · exact .inl hq
        · exact .inr ⟨thread, hq⟩
      calc
        a.floor = t.floor thread := hfloor
        _ ≤ t.returned a.server a.key := h.floor thread r hr hrserver hrkey
        _ ≤ t.version q := h.own q a.objectDTO hown hheld
        _ = a.version := hversion.symm

end Monotone

/-- **An instance's reads of a key are monotone** in every run in which both doors stay shut
for it: each call that returns an object returns a version at least as new as any the
instance had returned when the call began. -/
theorem monotone_reads {objects : ObjectsTable} {es : List Event} {t : Traced} {server : ℕ}
    {key : String}
    (hok : Along (step jdk malformed) (Fresh malformed server key) (start jdk objects) es)
    (hrun : run (step jdk malformed) (start jdk objects) es = some t) :
    ∀ a ∈ t.readings, a.server = server → a.key = key →
      t.object key a.version = some a.objectDTO ∧ a.floor ≤ a.version := by
  have hstep : ∀ t e t', Tagged jdk malformed t ∧ Monotone malformed server key t →
      Fresh malformed server key t e → t.step jdk malformed e = some t' →
        Tagged jdk malformed t' ∧ Monotone malformed server key t' :=
    fun _ _ _ h hfresh hstep => ⟨tagged_step h.1 hstep, monotone_step h.1 h.2 hfresh hstep⟩
  have hboth := run_invariant hstep ⟨tagged_start objects, monotone_start objects⟩ hok hrun
  rintro a ha hserver rfl
  exact ⟨(hboth.1.readings a ha).2, hboth.2.readings a ha hserver rfl⟩

/-! ## One thread without a replica

Its reads are monotone whatever is committed and evicted. -/

def Alone : Event → Prop
  | .getFullObject thread _ _ | .next thread _ => thread = 0
  | .replicate _ => False
  | .commit _ | .evictNear _ _ | .evictRedis _ => True

structure Solo (malformed : Bytes → String) (c : Cluster) : Prop where
  replica : ∀ field key d, ¬ c.HeldAt malformed (.replica field) key d
  idle : ∀ thread, thread ≠ 0 → c.requests thread = none

theorem solo_start (objects : ObjectsTable) : Solo malformed (.start objects) where
  replica _ _ _ h := absurd (Cluster.holds_iff.mpr ⟨_, h⟩) Cluster.not_holds_start
  idle _ _ := rfl

theorem solo_step {c c' : Cluster} {e : Event} (h : Solo malformed c) (he : Alone e)
    (hstep : c.step jdk malformed e = some c') : Solo malformed c' where
  replica field key d hheld := by
    rcases Cluster.heldAt_step hstep hheld with ⟨source, hflow, hgives⟩ | ⟨_, hbefore⟩
    · cases e with
      | replicate => exact he
      | next thread returned =>
          simp only [Cluster.flow] at hflow
          split at hflow
          · split at hflow
            · cases hflow
            · cases hflow
            · split at hflow <;> cases hflow
            · cases hflow
            · cases hflow
          · cases hflow
      | getFullObject | commit | evictNear | evictRedis => cases hflow
    · exact h.replica field key d hbefore
  idle thread hthread := by
    cases hr' : c'.requests thread with
    | none => rfl
    | some r' =>
        rcases Cluster.requests_step hstep hr' with rfl | ⟨_, r, hr, _⟩
        · exact absurd he hthread
        · rw [h.idle thread hthread] at hr
          cases hr

theorem fresh_of_solo {t : Traced} {e : Event} (h : Solo malformed t.cluster) (he : Alone e)
    (server : ℕ) (key : String) : Fresh malformed server key t e where
  redis _ _ _ _ _ _ _ d hheld := absurd hheld (h.replica _ key d)
  hand := by
    intro a ha hserver _ thread d hheld
    obtain ⟨_, t₀, r, _, rfl, hr, _⟩ := reading_held malformed ha
    obtain rfl : t₀ = 0 := he
    -- only the thread that answers can have anything in hand
    generalize hq : Place.hand thread server = q at hheld
    cases hheld with
    | @hand t₁ r₁ _ running inHand =>
        obtain ⟨rfl, _⟩ := Place.hand.inj hq
        obtain rfl : thread = 0 := by
          by_contra hne
          rw [h.idle thread hne] at running
          cases running
        obtain rfl : r = r₁ := Option.some.inj (hr.symm.trans running)
        simp only [reading?, hr] at ha
        split at ha
        · rename_i hphase _
          rw [hphase] at inHand
          cases inHand
        · obtain rfl := Option.some.inj ha
          exact Nat.le_refl _
        · cases ha
    | near | primary | replica => cases hq

theorem along_fresh_of_alone {t : Traced} {es : List Event} (h : Solo malformed t.cluster)
    (hes : ∀ e ∈ es, Alone e) (server : ℕ) (key : String) :
    Along (step jdk malformed) (Fresh malformed server key) t es := by
  induction es generalizing t with
  | nil => exact trivial
  | cons e es ih =>
      have he := hes e List.mem_cons_self
      refine ⟨fresh_of_solo h he server key, ?_⟩
      cases hstep : t.step jdk malformed e with
      | none => exact trivial
      | some t' =>
          obtain ⟨c, hc, rfl⟩ := step_eq_some.mp hstep
          exact ih (solo_step h he hc) (fun e' he' => hes e' (List.mem_cons_of_mem e he'))

/-! ## The two doors -/

open Cluster (objectsAfter insertSec updateSec missingCall)

/-- What a run's calls returned: server, floor and version. -/
def versionsRead (es : List Event) : Option (List (ℕ × ℕ × ℕ)) :=
  (run (step Jdk.ascii fun _ => "") (start Jdk.ascii (objectsAfter [insertSec])) es).map
    fun t => t.readings.map fun a => (a.server, a.floor, a.version)

/-- A call before the update, and one after it, with every cache cleared in between. -/
def clearedCaches : List Event :=
  missingCall 0 0 "testSec" ++
    [.commit (objectsAfter [insertSec, updateSec]), .evictNear 0 "testSec",
      .evictRedis (encode "testSec")] ++
    missingCall 0 0 "testSec"

theorem monotone_clearedCaches :
    ∃ t, run (step Jdk.ascii fun _ => "") (start Jdk.ascii (objectsAfter [insertSec]))
        clearedCaches = some t ∧
      t.readings.map (fun a => (a.server, a.floor, a.version)) = [(0, 0, 0), (0, 0, 1)] ∧
      ∀ a ∈ t.readings, a.server = 0 → a.key = "testSec" →
        t.object "testSec" a.version = some a.objectDTO ∧ a.floor ≤ a.version := by
  have halone : ∀ e ∈ clearedCaches, Alone e := by
    intro e he
    simp only [clearedCaches, missingCall, List.mem_append, List.mem_cons, List.mem_replicate,
      List.not_mem_nil, or_false] at he
    rcases he with ((rfl | ⟨_, rfl⟩) | rfl | rfl | rfl) | rfl | ⟨_, rfl⟩
    · exact rfl
    · exact rfl
    · exact trivial
    · exact trivial
    · exact trivial
    · exact rfl
    · exact rfl
  have hok : Along (step Jdk.ascii fun _ => "") (Fresh (fun _ => "") 0 "testSec")
      (start Jdk.ascii (objectsAfter [insertSec])) clearedCaches :=
    along_fresh_of_alone (solo_start _) halone 0 "testSec"
  have hread : versionsRead clearedCaches = some [(0, 0, 0), (0, 0, 1)] := by decide +kernel
  obtain ⟨t, hrun, hversions⟩ := Option.map_eq_some_iff.mp hread
  exact ⟨t, hrun, hversions, monotone_reads hok hrun⟩

/-- Server 1 reads the object before the update and stores it in Redis after server 0 has
looked there; server 0 returns the new one, loses it and finds the old one in Redis. -/
def olderInRedis : List Event :=
  [.getFullObject 1 1 "testSec", .next 1 true, .next 1 true, .next 1 true,
   .getFullObject 0 0 "testSec", .next 0 true, .next 0 true,
   .commit (objectsAfter [insertSec, updateSec]),
   .next 0 true, .next 1 true, .next 0 true, .next 0 true,
   .replicate (encode "testSec"), .evictNear 0 "testSec",
   .getFullObject 0 0 "testSec", .next 0 true, .next 0 true, .next 0 true]

/-- Two calls on one server: the one that read first caches last. -/
def olderInHand : List Event :=
  [.getFullObject 0 0 "testSec", .next 0 true, .next 0 true, .next 0 true,
   .commit (objectsAfter [insertSec, updateSec]),
   .getFullObject 1 0 "testSec", .next 1 true, .next 1 true, .next 1 true, .next 1 true,
   .next 1 true,
   .next 0 true, .next 0 true,
   .getFullObject 1 0 "testSec", .next 1 true]

/-- A call that returns an older version than its server had returned before it began. -/
theorem exists_older {es : List Event} {seen : List (ℕ × ℕ × ℕ)}
    (hread : versionsRead es = some seen) {server floor version : ℕ}
    (hmem : (server, floor, version) ∈ seen) (hlt : version < floor) :
    ∃ t, run (step Jdk.ascii fun _ => "") (start Jdk.ascii (objectsAfter [insertSec])) es =
        some t ∧ ∃ a ∈ t.readings, ¬ a.floor ≤ a.version := by
  obtain ⟨t, hrun, rfl⟩ := Option.map_eq_some_iff.mp hread
  obtain ⟨a, ha, heq⟩ := List.mem_map.mp hmem
  cases heq
  exact ⟨t, hrun, a, ha, Nat.not_le.mpr hlt⟩

/-- Both doors let an older version through: the last call of server 0 returns version 0,
and an earlier one, over when it began, returned version 1. -/
theorem older_reads :
    (versionsRead olderInRedis = some [(0, 0, 1), (0, 1, 0)] ∧
      ∃ t, run (step Jdk.ascii fun _ => "") (start Jdk.ascii (objectsAfter [insertSec]))
          olderInRedis = some t ∧ ∃ a ∈ t.readings, ¬ a.floor ≤ a.version) ∧
    versionsRead olderInHand = some [(0, 0, 1), (0, 0, 0), (0, 1, 0)] ∧
      ∃ t, run (step Jdk.ascii fun _ => "") (start Jdk.ascii (objectsAfter [insertSec]))
          olderInHand = some t ∧ ∃ a ∈ t.readings, ¬ a.floor ≤ a.version := by
  have hredis : versionsRead olderInRedis = some [(0, 0, 1), (0, 1, 0)] := by decide +kernel
  have hhand : versionsRead olderInHand = some [(0, 0, 1), (0, 0, 0), (0, 1, 0)] := by
    decide +kernel
  have hmem : ((0, 1, 0) : ℕ × ℕ × ℕ) ∈ [(0, 0, 1), (0, 1, 0)] := by decide
  have hmem' : ((0, 1, 0) : ℕ × ℕ × ℕ) ∈ [(0, 0, 1), (0, 0, 0), (0, 1, 0)] := by decide
  exact ⟨⟨hredis, exists_older hredis hmem Nat.one_pos⟩,
    hhand, exists_older hhand hmem' Nat.one_pos⟩

end Traced

end AuroraSizing.Cache

import AuroraSizing.Cache.NearCache

/-!
# A cached read as one call

`NearCachedObjectRepository.getFullObject` written as it stands in the source, from its
first line to its last. `getFullObject_alone` says that the operations of `Cluster.next`
come to the same caches and the same answer when no other thread runs between them.
-/

namespace AuroraSizing.Cache

open Foundation.System

/-- One whole call of `NearCachedObjectRepository.getFullObject`, up to its last line;
no Redis command and no query raises. -/
def NearCachedObjectRepository.getFullObject (jdk : Jdk) (malformed : Bytes → String)
    (c : Cluster) (server : ℕ) (key : String) : Cluster × Option ObjectDTO :=
  match c.objMapCache server key with
  | some fromNearCache => (c, some fromNearCache)
  | none =>
      match c.getFromRedis malformed key true with
      | some fromCache => (c.putNear server key (some fromCache), some fromCache)
      | none =>
          match ObjectRepository.getFullObject jdk c.objects key with
          | some objectDTO =>
              ((c.setToRedis key objectDTO true).putNear server key (some objectDTO),
                some objectDTO)
          | none => (c, none)

/-! ## The cached read is a run of the cluster -/

section Alone
variable (jdk : Jdk) (malformed : Bytes → String)

/-- In `n` operations of its own the thread comes to this answer, and leaves the caches
as they are in `caches`. -/
def Finishes (thread n : ℕ) (c caches : Cluster) (answer : Option ObjectDTO) : Prop :=
  ∃ c', run (Cluster.step jdk malformed) c (List.replicate n (.next thread true)) = some c' ∧
    c'.requests thread = none ∧ c'.objMapCache = caches.objMapCache ∧
    c'.primary = caches.primary ∧
    c'.answers.map Answer.reply = c.answers.map Answer.reply ++ [reply answer]

variable {jdk malformed} {thread n server : ℕ} {key : String} {uncached : List (Option ObjectDTO)}
  {c c₁ caches : Cluster} {r r₁ : Request} {d : ObjectDTO} {answer : Option ObjectDTO}

/-- The thread's last operation. -/
theorem Finishes.of_finish (hr : c.requests thread = some r)
    (hnext : c.next jdk malformed thread r true = caches.finish thread r₁ answer)
    (hanswers : caches.answers = c.answers) :
    Finishes jdk malformed thread 1 c caches answer := by
  refine ⟨caches.finish thread r₁ answer, ?_, ?_, rfl, rfl, ?_⟩
  · rw [List.replicate_one, run_cons_eq_some]
    refine ⟨_, ?_, rfl⟩
    simp only [Cluster.step, hr, hnext]
  · simp [Cluster.finish, Cluster.setRequest]
  · simp [Cluster.finish, Cluster.setRequest, hanswers]

theorem Finishes.of_proceed {phase : Phase} (hr : c.requests thread = some r)
    (hnext : c.next jdk malformed thread r true = c₁.proceed thread r₁ phase)
    (hanswers : c₁.answers = c.answers)
    (h : Finishes jdk malformed thread n (c₁.proceed thread r₁ phase) caches answer) :
    Finishes jdk malformed thread (n + 1) c caches answer := by
  rcases h with ⟨c', hrun, hidle, hnear, hprimary, hreplies⟩
  refine ⟨c', ?_, hidle, hnear, hprimary, ?_⟩
  · rw [List.replicate_succ, run_cons_eq_some]
    refine ⟨_, ?_, hrun⟩
    simp only [Cluster.step, hr, hnext]
  · rw [hreplies, show (c₁.proceed thread r₁ phase).answers = c.answers from hanswers]

theorem requests_proceed (c : Cluster) (thread : ℕ) (r : Request) (phase : Phase) :
    (c.proceed thread r phase).requests thread = some { r with phase := phase } := by
  simp [Cluster.proceed, Cluster.setRequest]

theorem setToRedis_answers (c : Cluster) (key : String) (d : ObjectDTO) (returned : Bool) :
    (c.setToRedis key d returned).answers = c.answers := by
  unfold Cluster.setToRedis
  split <;> rfl

theorem setToRedis_setRequest (c : Cluster) (thread : ℕ) (r : Option Request) (key : String)
    (d : ObjectDTO) (returned : Bool) :
    (c.setRequest thread r).setToRedis key d returned =
      (c.setToRedis key d returned).setRequest thread r := by
  have hprimary : (c.setRequest thread r).primary = c.primary := rfl
  unfold Cluster.setToRedis
  rw [hprimary]
  split <;> rfl

/-- What the caches hold once a read of the database is over. -/
def filled (c : Cluster) (server : ℕ) (key : String) (objectDTO : Option ObjectDTO) : Cluster :=
  match objectDTO with
  | some d => (c.setToRedis key d true).putNear server key (some d)
  | none => c

theorem filled_setRequest (c : Cluster) (thread : ℕ) (r : Option Request) (server : ℕ)
    (key : String) (objectDTO : Option ObjectDTO) :
    filled (c.setRequest thread r) server key objectDTO =
      (filled c server key objectDTO).setRequest thread r := by
  cases objectDTO with
  | none => rfl
  | some d =>
      rw [filled, setToRedis_setRequest]
      rfl

theorem getFullObject_of_miss (hnear : c.objMapCache server key = none)
    (hredis : c.getFromRedis malformed key true = none) :
    NearCachedObjectRepository.getFullObject jdk malformed c server key =
      (filled c server key (ObjectRepository.getFullObject jdk c.objects key),
        ObjectRepository.getFullObject jdk c.objects key) := by
  simp only [NearCachedObjectRepository.getFullObject, hnear, hredis]
  cases ObjectRepository.getFullObject jdk c.objects key <;> rfl

theorem finishes_setToNearCache
    (hr : c.requests thread = some ⟨server, key, .setToNearCache d, uncached⟩) :
    Finishes jdk malformed thread 1 c (c.putNear server key (some d)) (some d) :=
  Finishes.of_finish hr rfl rfl

theorem finishes_setToRedis
    (hr : c.requests thread = some ⟨server, key, .setToRedis d, uncached⟩) :
    Finishes jdk malformed thread 2 c ((c.setToRedis key d true).putNear server key (some d))
      (some d) := by
  refine Finishes.of_proceed hr rfl (setToRedis_answers c key d true) ?_
  exact finishes_setToNearCache (requests_proceed _ _ _ _)

theorem finishes_getFromDB
    (hr : c.requests thread = some ⟨server, key, .getFromDB, uncached⟩)
    (hobject : ObjectRepository.getFullObject jdk c.objects key = answer) :
    ∃ n ≤ 3, Finishes jdk malformed thread n c (filled c server key answer) answer := by
  cases answer with
  | none =>
      have hnext : c.next jdk malformed thread ⟨server, key, .getFromDB, uncached⟩ true =
          c.finish thread ⟨server, key, .getFromDB, uncached ++ [none]⟩ none := by
        simp only [Cluster.next, hobject, if_true]
      exact ⟨1, by decide, Finishes.of_finish hr hnext rfl⟩
  | some d =>
      have hnext : c.next jdk malformed thread ⟨server, key, .getFromDB, uncached⟩ true =
          c.proceed thread ⟨server, key, .getFromDB, uncached ++ [some d]⟩ (.setToRedis d) := by
        simp only [Cluster.next, hobject, if_true]
      refine ⟨3, le_refl 3, Finishes.of_proceed hr hnext rfl ?_⟩
      have hlast : Finishes jdk malformed thread 2 _ _ (some d) :=
        finishes_setToRedis (requests_proceed c thread
          ⟨server, key, .getFromDB, uncached ++ [some d]⟩ (.setToRedis d))
      rw [Cluster.proceed, setToRedis_setRequest] at hlast
      exact hlast

theorem finishes_getFromRedis
    (hr : c.requests thread = some ⟨server, key, .getFromRedis, uncached⟩)
    (hnear : c.objMapCache server key = none)
    (hwhole : NearCachedObjectRepository.getFullObject jdk malformed c server key =
      (caches, answer)) :
    ∃ n ≤ 4, Finishes jdk malformed thread n c caches answer := by
  cases hredis : c.getFromRedis malformed key true with
  | some fromCache =>
      simp only [NearCachedObjectRepository.getFullObject, hnear, hredis, Prod.mk.injEq] at hwhole
      rcases hwhole with ⟨rfl, rfl⟩
      have hnext : c.next jdk malformed thread ⟨server, key, .getFromRedis, uncached⟩ true =
          c.proceed thread ⟨server, key, .getFromRedis, uncached⟩
            (.setToNearCache fromCache) := by
        simp only [Cluster.next, hredis]
      refine ⟨2, by decide, Finishes.of_proceed hr hnext rfl ?_⟩
      exact finishes_setToNearCache (requests_proceed c thread
        ⟨server, key, .getFromRedis, uncached⟩ (.setToNearCache fromCache))
  | none =>
      rw [getFullObject_of_miss hnear hredis, Prod.mk.injEq] at hwhole
      rcases hwhole with ⟨rfl, hobject⟩
      have hnext : c.next jdk malformed thread ⟨server, key, .getFromRedis, uncached⟩ true =
          c.proceed thread ⟨server, key, .getFromRedis, uncached⟩ .getFromDB := by
        simp only [Cluster.next, hredis]
      obtain ⟨n, hn, hlast⟩ := finishes_getFromDB
        (requests_proceed c thread ⟨server, key, .getFromRedis, uncached⟩ .getFromDB) hobject
      refine ⟨n + 1, by omega, Finishes.of_proceed hr hnext rfl ?_⟩
      rw [Cluster.proceed, filled_setRequest, ← hobject] at hlast
      rw [Cluster.proceed, ← hobject]
      exact hlast

theorem getFullObject_setRequest (c : Cluster) (thread : ℕ) (r : Option Request) (server : ℕ)
    (key : String) :
    NearCachedObjectRepository.getFullObject jdk malformed (c.setRequest thread r) server key =
      ((NearCachedObjectRepository.getFullObject jdk malformed c server key).1.setRequest thread r,
        (NearCachedObjectRepository.getFullObject jdk malformed c server key).2) := by
  have hnear : (c.setRequest thread r).objMapCache = c.objMapCache := rfl
  have hredis : (c.setRequest thread r).getFromRedis malformed key true =
      c.getFromRedis malformed key true := rfl
  have hobjects : (c.setRequest thread r).objects = c.objects := rfl
  unfold NearCachedObjectRepository.getFullObject
  rw [hnear, hredis, hobjects]
  cases c.objMapCache server key with
  | some fromNearCache => rfl
  | none =>
      cases c.getFromRedis malformed key true with
      | some fromCache => rfl
      | none =>
          cases ObjectRepository.getFullObject jdk c.objects key with
          | none => rfl
          | some d =>
              simp only [setToRedis_setRequest]
              rfl

theorem finishes_getFromNearCache
    (hr : c.requests thread = some ⟨server, key, .getFromNearCache, uncached⟩)
    (hwhole : NearCachedObjectRepository.getFullObject jdk malformed c server key =
      (caches, answer)) :
    ∃ n ≤ 5, Finishes jdk malformed thread n c caches answer := by
  cases hnear : c.objMapCache server key with
  | some fromNearCache =>
      simp only [NearCachedObjectRepository.getFullObject, hnear, Prod.mk.injEq] at hwhole
      rcases hwhole with ⟨rfl, rfl⟩
      have hnext : c.next jdk malformed thread ⟨server, key, .getFromNearCache, uncached⟩ true =
          c.finish thread ⟨server, key, .getFromNearCache, uncached⟩ (some fromNearCache) := by
        simp only [Cluster.next, hnear]
      exact ⟨1, by decide, Finishes.of_finish hr hnext rfl⟩
  | none =>
      have hnext : c.next jdk malformed thread ⟨server, key, .getFromNearCache, uncached⟩ true =
          c.proceed thread ⟨server, key, .getFromNearCache, uncached⟩ .getFromRedis := by
        simp only [Cluster.next, hnear]
      have hwhole' : NearCachedObjectRepository.getFullObject jdk malformed
          (c.setRequest thread (some ⟨server, key, .getFromRedis, uncached⟩)) server key = _ :=
        getFullObject_setRequest c thread _ server key
      rw [hwhole] at hwhole'
      obtain ⟨n, hn, hlast⟩ := finishes_getFromRedis (requests_proceed c thread
        ⟨server, key, .getFromNearCache, uncached⟩ .getFromRedis) hnear hwhole'
      exact ⟨n + 1, by omega, Finishes.of_proceed hr hnext rfl hlast⟩

/-- Alone on its thread, a `getFullObject` that no command and no query of raises is at
most five operations, which do what the whole call does. -/
theorem getFullObject_alone (c : Cluster) (thread server : ℕ) (key : String)
    (hidle : c.requests thread = none) :
    ∃ c₁, c.step jdk malformed (.getFullObject thread server key) = some c₁ ∧
      ∃ n ≤ 5, Finishes jdk malformed thread n c₁
        (NearCachedObjectRepository.getFullObject jdk malformed c server key).1
        (NearCachedObjectRepository.getFullObject jdk malformed c server key).2 := by
  have hstep : c.step jdk malformed (.getFullObject thread server key) =
      some (c.setRequest thread (some ⟨server, key, .getFromNearCache,
        [ObjectRepository.getFullObject jdk c.objects key]⟩)) := by
    simp only [Cluster.step, hidle]
  obtain ⟨n, hn, hfinishes⟩ := finishes_getFromNearCache (Function.update_self thread _ c.requests)
    (getFullObject_setRequest c thread (some ⟨server, key, .getFromNearCache,
      [ObjectRepository.getFullObject jdk c.objects key]⟩) server key)
  exact ⟨_, hstep, n, hn, hfinishes⟩

end Alone

end AuroraSizing.Cache

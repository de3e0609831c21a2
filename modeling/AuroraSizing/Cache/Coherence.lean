import AuroraSizing.Cache.Held

/-!
# When the caches are coherent

Nothing ever takes an entry back when its row changes, so the caches answer as the
table does exactly as long as no commit changes an object that a cache, or a call
on its way to one, still holds. `stale_after_update` is the run that breaks it.
-/

namespace AuroraSizing.Cache

open Foundation.System Foundation.Utf8

namespace Cluster

variable (jdk : Jdk) (malformed : Bytes → String)

/-- A commit leaves every object alone that is still held for its key. -/
def KeepsHeld (c : Cluster) : Event → Prop
  | .commit objects => ∀ key d, c.Holds malformed key d →
      ObjectRepository.getFullObject jdk objects key =
        ObjectRepository.getFullObject jdk c.objects key
  | _ => True

/-- What is held is what the table answers, and every call has seen that answer. -/
structure Inv (c : Cluster) : Prop where
  fresh : ∀ key d, c.Holds malformed key d →
    ObjectRepository.getFullObject jdk c.objects key = some d
  seen : ∀ thread r, c.requests thread = some r →
    ObjectRepository.getFullObject jdk c.objects r.key ∈ r.uncached
  coherent : ∀ a ∈ c.answers, a.reply ∈ a.uncached

variable {jdk malformed}

theorem inv_start (objects : ObjectsTable) : Inv jdk malformed (start objects) where
  fresh _ _ h := absurd h not_holds_start
  seen := fun _ _ h => nomatch h
  coherent := fun _ h => nomatch h

/-! ## Steps and runs -/

theorem Inv.fresh_step {c c' : Cluster} {e : Event} (h : Inv jdk malformed c)
    (hkeeps : c.KeepsHeld jdk malformed e) (hstep : c.step jdk malformed e = some c')
    {key : String} {d : ObjectDTO} (hheld : c'.Holds malformed key d) :
    ObjectRepository.getFullObject jdk c'.objects key = some d := by
  have hbefore := holds_step hstep hheld
  rcases objects_step hstep with rfl | hsame
  · rcases hbefore with hheld | ⟨_, _, he, _⟩
    · exact (hkeeps key d hheld).trans (h.fresh key d hheld)
    · cases he
  · rw [hsame]
    rcases hbefore with hheld | ⟨_, _, _, _, _, _, hrow⟩
    · exact h.fresh key d hheld
    · exact hrow

/-- What every call in progress and every answer has seen. -/
structure Seen (jdk : Jdk) (c : Cluster) : Prop where
  seen : ∀ thread r, c.requests thread = some r →
    ObjectRepository.getFullObject jdk c.objects r.key ∈ r.uncached
  coherent : ∀ a ∈ c.answers, a.reply ∈ a.uncached

theorem Seen.setRequest {c : Cluster} (h : Seen jdk c) (thread : ℕ) {o : Option Request}
    (hseen : ∀ r, o = some r → ObjectRepository.getFullObject jdk c.objects r.key ∈ r.uncached) :
    Seen jdk (c.setRequest thread o) where
  seen := by
    intro t r running
    by_cases ht : t = thread
    · subst ht
      exact hseen r (by simpa [Cluster.setRequest] using running)
    · exact h.seen t r (by simpa [Cluster.setRequest, ht] using running)
  coherent := h.coherent

theorem Seen.proceed {c : Cluster} (h : Seen jdk c) (thread : ℕ) {r : Request} (phase : Phase)
    (hseen : ObjectRepository.getFullObject jdk c.objects r.key ∈ r.uncached) :
    Seen jdk (c.proceed thread r phase) := by
  apply h.setRequest
  intro r' hr'
  obtain rfl := Option.some.inj hr'
  exact hseen

theorem Seen.finish {c : Cluster} (h : Seen jdk c) (thread : ℕ) {r : Request}
    {o : Option ObjectDTO} (ho : o ∈ r.uncached) : Seen jdk (c.finish thread r o) where
  seen := (h.setRequest thread (o := none) (fun _ h => nomatch h)).seen
  coherent := by
    intro a ha
    rcases List.mem_append.mp ha with hold | hnew
    · exact h.coherent a hold
    · obtain rfl := List.mem_singleton.mp hnew
      exact List.mem_map_of_mem ho

theorem Seen.setToRedis {c : Cluster} (h : Seen jdk c) (key : String) (d : ObjectDTO)
    (returned : Bool) : Seen jdk (c.setToRedis key d returned) := by
  unfold Cluster.setToRedis
  split
  · exact ⟨h.seen, h.coherent⟩
  · exact h

theorem Inv.next {c : Cluster} (h : Inv jdk malformed c) {thread : ℕ} {r : Request}
    (hr : c.requests thread = some r) (returned : Bool) :
    Seen jdk (c.next jdk malformed thread r returned) := by
  have hall : Seen jdk c := ⟨h.seen, h.coherent⟩
  have hseen := h.seen thread r hr
  -- an object that is held is one of those the call has seen
  have hmem : ∀ d, c.Holds malformed r.key d → some d ∈ r.uncached :=
    fun d hd => h.fresh r.key d hd ▸ hseen
  have hmoves := moves_next jdk malformed c thread r returned
  generalize c.next jdk malformed thread r returned = c' at hmoves
  cases hmoves with
  | nearHit _ hentry => exact hall.finish thread (hmem _ (.near r.server hentry))
  | nearMiss | redisHit | redisMiss => exact hall.proceed thread _ hseen
  | read => exact hall.proceed thread _ (List.mem_append_left _ hseen)
  | readNone => exact hall.finish thread (List.mem_append_right _ List.mem_cons_self)
  | stored =>
      apply (hall.setToRedis r.key _ returned).proceed thread
      rw [setToRedis_objects]
      exact hseen
  | @cached returned d hphase =>
      have hput : Seen jdk (c.putNear r.server r.key (some d)) := ⟨h.seen, h.coherent⟩
      exact hput.finish thread (hmem d (.request thread r hr rfl (by rw [hphase]; rfl)))

theorem Inv.seen_step {c c' : Cluster} {e : Event} (h : Inv jdk malformed c)
    (hstep : c.step jdk malformed e = some c') : Seen jdk c' := by
  have hall : Seen jdk c := ⟨h.seen, h.coherent⟩
  cases e with
  | getFullObject thread server key =>
      simp only [step] at hstep
      split at hstep
      · obtain rfl := Option.some.inj hstep
        apply hall.setRequest
        intro r hr
        obtain rfl := Option.some.inj hr
        exact List.mem_cons_self
      · cases hstep
  | next thread returned =>
      simp only [step] at hstep
      split at hstep
      · rename_i r hr
        obtain rfl := Option.some.inj hstep
        exact h.next hr returned
      · cases hstep
  | commit objects =>
      obtain rfl := Option.some.inj hstep
      refine ⟨?_, h.coherent⟩
      intro t r running
      obtain ⟨r₀, -, rfl⟩ := Option.map_eq_some_iff.mp running
      exact List.mem_append_right _ List.mem_cons_self
  | evictNear | evictRedis | replicate =>
      obtain rfl := Option.some.inj hstep
      exact ⟨h.seen, h.coherent⟩

theorem inv_step {c c' : Cluster} {e : Event} (h : Inv jdk malformed c)
    (hkeeps : c.KeepsHeld jdk malformed e) (hstep : c.step jdk malformed e = some c') :
    Inv jdk malformed c' where
  fresh _ _ hheld := h.fresh_step hkeeps hstep hheld
  seen := (h.seen_step hstep).seen
  coherent := (h.seen_step hstep).coherent

/-- **While no commit changes an object that is still held, the cache is invisible**:
every `getFullObject` returns what the uncached one returns at some point while it
runs. -/
theorem coherent_of_keeps_held {objects : ObjectsTable} {es : List Event} {c : Cluster}
    (hok : Along (step jdk malformed) (KeepsHeld jdk malformed) (start objects) es)
    (hrun : run (step jdk malformed) (start objects) es = some c) :
    ∀ a ∈ c.answers, a.reply ∈ a.uncached :=
  (run_invariant (fun _ _ _ h hkeeps => inv_step h hkeeps) (inv_start objects) hok hrun).coherent

/-! ## Fresh and stale entries -/

/-- The table after these write calls, each committed. -/
def objectsAfter (calls : List (Call Jdk.ascii)) : ObjectsTable :=
  (Database.empty.run true (calls.flatMap fun call => [.call call, .commit])).2.committed

def insertSec : Call Jdk.ascii :=
  .insertRec
    { metadata := { securityName := "testSec", timeUpdate := "1970-01-01 00:00:00" }, mem := [1] }
    7 ⟨0⟩ rfl

def updateSec : Call Jdk.ascii :=
  .updateRec
    { oldMetadata := { securityName := "testSec" }
      newMetadata :=
        { securityName := "testSec", updateCount := 1, timeUpdate := "1970-01-01 00:00:00" }
      mem := [2] }
    8 ⟨0⟩ rfl

/-- One call that misses both caches, from beginning to end. -/
def missingCall (thread server : ℕ) (key : String) : List Event :=
  .getFullObject thread server key :: List.replicate 5 (.next thread true)

/-- A call that finds the key in its near cache. -/
def nearCall (thread server : ℕ) (key : String) : List Event :=
  [.getFullObject thread server key, .next thread true]

def insertOther : Call Jdk.ascii :=
  .insertRec
    { metadata := { securityName := "other", timeUpdate := "1970-01-01 00:00:00" } } 8 ⟨0⟩ rfl

theorem keepsHeld_missingCall (thread server : ℕ) (key : String) :
    ∀ e ∈ missingCall thread server key, ∀ c : Cluster, c.KeepsHeld jdk malformed e := by
  intro e he c
  rcases List.mem_cons.mp he with rfl | he
  · trivial
  · rw [List.eq_of_mem_replicate he]
    trivial

theorem keepsHeld_nearCall (thread server : ℕ) (key : String) :
    ∀ e ∈ nearCall thread server key, ∀ c : Cluster, c.KeepsHeld jdk malformed e := by
  intro e he c
  rcases List.mem_pair.mp he with rfl | rfl
  · trivial
  · trivial

/-- After one call only its own key is held. -/
theorem held_after_missingCall {c : Cluster} {key : String} {d : ObjectDTO}
    (hrun : run (step Jdk.ascii fun _ => "") (start (objectsAfter [insertSec]))
      (missingCall 0 0 "testSec") = some c)
    (h : c.Holds (fun _ => "") key d) : key = "testSec" := by
  obtain rfl := Option.some.inj hrun
  by_contra hkey
  cases h with
  | near server entry =>
      change Function.update (fun _ _ => none) 0
        (Function.update (fun _ => none) "testSec" (some _)) server key = some d at entry
      by_cases hserver : server = 0
      · subst hserver
        simp [hkey] at entry
      · simp [hserver] at entry
  | primary bytes value decoded =>
      change Function.update (fun _ => none) (encode "testSec") (some _) (encode key) =
        some bytes at value
      rw [Function.update_of_ne (fun h => hkey (encode_injective h))] at value
      cases value
  | replica bytes value decoded => cases value
  | request t r running same inHand =>
      by_cases ht : t = 0
      · subst ht
        cases running
      · change Function.update (Function.update (Function.update (Function.update
          (Function.update (Function.update (fun _ => none) 0 _) 0 _) 0 _) 0 _) 0 _) 0 none t =
            some r at running
        simp [ht] at running

/-- A commit that touches another row, with the key in the near cache and in Redis. -/
theorem coherent_beside_other_insert :
    ∃ c, run (step Jdk.ascii fun _ => "") (start (objectsAfter [insertSec]))
        (missingCall 0 0 "testSec" ++ .commit (objectsAfter [insertSec, insertOther]) ::
          nearCall 1 0 "testSec") = some c ∧
      c.answers.length = 2 ∧ ∀ a ∈ c.answers, a.reply ∈ a.uncached := by
  obtain ⟨c, hc⟩ : ∃ c, run (step Jdk.ascii fun _ => "") (start (objectsAfter [insertSec]))
      (missingCall 0 0 "testSec") = some c := ⟨_, rfl⟩
  have hcommit : c.KeepsHeld Jdk.ascii (fun _ => "")
      (.commit (objectsAfter [insertSec, insertOther])) := by
    intro key d hheld
    obtain rfl := held_after_missingCall hc hheld
    obtain rfl := Option.some.inj hc
    decide
  have hok := (Along.of_forall (keepsHeld_missingCall 0 0 "testSec") _).append hc
    (Along.cons hcommit rfl (Along.of_forall (keepsHeld_nearCall 1 0 "testSec") _))
  exact ⟨_, rfl, rfl, coherent_of_keeps_held hok rfl⟩

/-- The update commits before the second call starts, and the call answers the object
from before. -/
theorem stale_after_update :
    ∃ c, run (step Jdk.ascii fun _ => "") (start (objectsAfter [insertSec]))
        (missingCall 0 0 "testSec" ++ [.commit (objectsAfter [insertSec, updateSec])] ++
          nearCall 1 0 "testSec") = some c ∧
      ∃ a ∈ c.answers, a.reply ∉ a.uncached := by
  refine ⟨_, rfl, ?_⟩
  decide

end Cluster

end AuroraSizing.Cache

import AuroraSizing.Cache.NearCache

/-!
# What the caches hold

An object for a key is in a near cache, in one of the two Redis hashes, or in the hands
of a call on its way to one. `heldAt_step` says once what an event does to all of
these places; the invariants of the cache are read off it.
-/

namespace AuroraSizing.Cache

open Foundation.Utf8

/-- The object a call has in hand. -/
def Phase.objectDTO : Phase → Option ObjectDTO
  | .setToRedis d | .setToNearCache d => some d
  | .getFromNearCache | .getFromRedis | .getFromDB => none

namespace Cluster

/-- Some cache, or a call about to fill one, holds this object for the key. -/
inductive Holds (malformed : Bytes → String) (c : Cluster) (key : String) (d : ObjectDTO) : Prop
  | near (server : ℕ) (entry : c.objMapCache server key = some d)
  | primary (bytes : Bytes) (value : c.primary (encode key) = some bytes)
      (decoded : ObjectDTO.fromBytes malformed bytes = .ok d)
  | replica (bytes : Bytes) (value : c.replica (encode key) = some bytes)
      (decoded : ObjectDTO.fromBytes malformed bytes = .ok d)
  | request (thread : ℕ) (r : Request) (running : c.requests thread = some r)
      (same : r.key = key) (inHand : r.phase.objectDTO = some d)

variable {jdk : Jdk} {malformed : Bytes → String}

/-! ## Places

An event fills at most one place: a call's hands from Redis or from the table, a cache
from a call's hands, the replica from the primary. -/

/-- A call of `ObjectRepository.getFullObject` for the key returns this object. -/
def ReadsFromDB (jdk : Jdk) (key : String) (d : ObjectDTO) (c : Cluster) (e : Event) : Prop :=
  ∃ thread r, e = .next thread true ∧ c.requests thread = some r ∧ r.phase = .getFromDB ∧
    r.key = key ∧ ObjectRepository.getFullObject jdk c.objects key = some d

/-- Where an object may be. -/
inductive Place where
  | near (server : ℕ) (key : String)
  | primary (field : Bytes)
  | replica (field : Bytes)
  | hand (thread server : ℕ)
deriving DecidableEq

/-- `Holds`, with the place. -/
inductive HeldAt (malformed : Bytes → String) (c : Cluster) :
    Place → String → ObjectDTO → Prop
  | near {server : ℕ} {key : String} {d : ObjectDTO} (entry : c.objMapCache server key = some d) :
      HeldAt malformed c (.near server key) key d
  | primary {key : String} {d : ObjectDTO} (bytes : Bytes)
      (value : c.primary (encode key) = some bytes)
      (decoded : ObjectDTO.fromBytes malformed bytes = .ok d) :
      HeldAt malformed c (.primary (encode key)) key d
  | replica {key : String} {d : ObjectDTO} (bytes : Bytes)
      (value : c.replica (encode key) = some bytes)
      (decoded : ObjectDTO.fromBytes malformed bytes = .ok d) :
      HeldAt malformed c (.replica (encode key)) key d
  | hand {thread : ℕ} {r : Request} {d : ObjectDTO} (running : c.requests thread = some r)
      (inHand : r.phase.objectDTO = some d) :
      HeldAt malformed c (.hand thread r.server) r.key d

inductive Source where
  | place (p : Place)
  | table (key : String)
deriving DecidableEq

/-- The place an event fills, if there is anything to fill it with, and from where. -/
def flow (c : Cluster) : Event → Option (Place × Source)
  | .next thread returned =>
      match c.requests thread with
      | some r =>
          match r.phase, returned with
          | .getFromRedis, true =>
              some (.hand thread r.server, .place (.replica (encode r.key)))
          | .getFromDB, true => some (.hand thread r.server, .table r.key)
          | .setToRedis _, true =>
              if c.primary (encode r.key) = none then
                some (.primary (encode r.key), .place (.hand thread r.server))
              else none
          | .setToNearCache _, _ => some (.near r.server r.key, .place (.hand thread r.server))
          | _, _ => none
      | none => none
  | .replicate field => some (.replica field, .place (.primary field))
  | .getFullObject _ _ _ | .commit _ | .evictNear _ _ | .evictRedis _ => none

/-- The source has this object for the key. -/
def Source.Gives (jdk : Jdk) (malformed : Bytes → String) (c : Cluster) (e : Event)
    (key : String) (d : ObjectDTO) : Source → Prop
  | .place p => c.HeldAt malformed p key d
  | .table k => k = key ∧ c.ReadsFromDB jdk key d e

section Held

variable {c c' : Cluster} {p : Place} {key : String} {d : ObjectDTO}

theorem holds_iff : c.Holds malformed key d ↔ ∃ p, c.HeldAt malformed p key d := by
  constructor
  · intro h
    cases h with
    | near server entry => exact ⟨_, .near entry⟩
    | primary bytes value decoded => exact ⟨_, .primary bytes value decoded⟩
    | replica bytes value decoded => exact ⟨_, .replica bytes value decoded⟩
    | request thread r running same inHand =>
        subst same
        exact ⟨_, .hand running inHand⟩
  · rintro ⟨p, h⟩
    cases h with
    | near entry => exact .near _ entry
    | primary bytes value decoded => exact .primary bytes value decoded
    | replica bytes value decoded => exact .replica bytes value decoded
    | hand running inHand => exact .request _ _ running rfl inHand

theorem not_holds_start {objects : ObjectsTable} : ¬ (start objects).Holds malformed key d := by
  intro h
  cases h with
  | near server entry => cases entry
  | primary bytes value decoded => cases value
  | replica bytes value decoded => cases value
  | request thread r running same inHand => cases running

theorem HeldAt.key_of_replica {k : String}
    (h : c.HeldAt malformed (.replica (encode k)) key d) : k = key := by
  generalize hp : Place.replica (encode k) = p at h
  cases h with
  | replica bytes value decoded => exact encode_injective (Place.replica.inj hp)
  | near | primary | hand => cases hp

theorem HeldAt.of_setRequest {thread : ℕ} {o : Option Request}
    (h : (c.setRequest thread o).HeldAt malformed p key d) :
    (c.HeldAt malformed p key d ∧ ∀ server, p ≠ .hand thread server) ∨
      ∃ r, o = some r ∧ p = .hand thread r.server ∧ r.key = key ∧ r.phase.objectDTO = some d := by
  cases h with
  | near entry => exact .inl ⟨.near entry, fun _ => Place.noConfusion⟩
  | primary bytes value decoded =>
      exact .inl ⟨.primary bytes value decoded, fun _ => Place.noConfusion⟩
  | replica bytes value decoded =>
      exact .inl ⟨.replica bytes value decoded, fun _ => Place.noConfusion⟩
  | @hand t r d running inHand =>
      by_cases ht : t = thread
      · subst ht
        exact .inr ⟨r, by simpa [Cluster.setRequest] using running, rfl, rfl, inHand⟩
      · refine .inl ⟨.hand (by simpa [Cluster.setRequest, ht] using running) inHand, ?_⟩
        intro server heq
        cases heq
        exact ht rfl

theorem HeldAt.of_proceed {thread : ℕ} {r : Request} {phase : Phase}
    (h : (c.proceed thread r phase).HeldAt malformed p key d) :
    (c.HeldAt malformed p key d ∧ ∀ server, p ≠ .hand thread server) ∨
      p = .hand thread r.server ∧ r.key = key ∧ phase.objectDTO = some d := by
  rcases h.of_setRequest with hheld | ⟨r', hr', hp, hsame, hd⟩
  · exact .inl hheld
  · obtain rfl := Option.some.inj hr'
    exact .inr ⟨hp, hsame, hd⟩

theorem HeldAt.of_finish {thread : ℕ} {r : Request} {o : Option ObjectDTO}
    (h : (c.finish thread r o).HeldAt malformed p key d) :
    c.HeldAt malformed p key d ∧ ∀ server, p ≠ .hand thread server := by
  have hidle : (c.setRequest thread none).HeldAt malformed p key d := by
    cases h with
    | near entry => exact .near entry
    | primary bytes value decoded => exact .primary bytes value decoded
    | replica bytes value decoded => exact .replica bytes value decoded
    | hand running inHand => exact .hand running inHand
  rcases hidle.of_setRequest with hheld | ⟨r, hr, _⟩
  · exact hheld
  · cases hr

theorem HeldAt.of_putNear {server : ℕ} {k : String} {entry : Option ObjectDTO}
    (h : (c.putNear server k entry).HeldAt malformed p key d) :
    (c.HeldAt malformed p key d ∧ p ≠ .near server k) ∨
      p = .near server k ∧ k = key ∧ entry = some d := by
  cases h with
  | @near s _ _ hentry =>
      by_cases hs : s = server
      · subst hs
        by_cases hk : key = k
        · subst hk
          exact .inr ⟨rfl, rfl, by simpa [Cluster.putNear] using hentry⟩
        · refine .inl ⟨.near (by simpa [Cluster.putNear, hk] using hentry), ?_⟩
          intro heq
          cases heq
          exact hk rfl
      · refine .inl ⟨.near (by simpa [Cluster.putNear, hs] using hentry), ?_⟩
        intro heq
        cases heq
        exact hs rfl
  | primary bytes value decoded => exact .inl ⟨.primary bytes value decoded, Place.noConfusion⟩
  | replica bytes value decoded => exact .inl ⟨.replica bytes value decoded, Place.noConfusion⟩
  | hand running inHand => exact .inl ⟨.hand running inHand, Place.noConfusion⟩

theorem HeldAt.of_putPrimary {field : Bytes} {value : Option Bytes}
    (h : (c.putPrimary field value).HeldAt malformed p key d) :
    (c.HeldAt malformed p key d ∧ p ≠ .primary field) ∨
      ∃ bytes, p = .primary field ∧ field = encode key ∧ value = some bytes ∧
        ObjectDTO.fromBytes malformed bytes = .ok d := by
  cases h with
  | near entry => exact .inl ⟨.near entry, Place.noConfusion⟩
  | primary bytes hvalue decoded =>
      by_cases hk : encode key = field
      · subst hk
        exact .inr ⟨bytes, rfl, rfl, by simpa [Cluster.putPrimary] using hvalue, decoded⟩
      · refine .inl ⟨.primary bytes (by simpa [Cluster.putPrimary, hk] using hvalue) decoded, ?_⟩
        intro heq
        cases heq
        exact hk rfl
  | replica bytes hvalue decoded =>
      exact .inl ⟨.replica bytes hvalue decoded, Place.noConfusion⟩
  | hand running inHand => exact .inl ⟨.hand running inHand, Place.noConfusion⟩

theorem HeldAt.of_putReplica {field : Bytes}
    (h : (c.putReplica field (c.primary field)).HeldAt malformed p key d) :
    (c.HeldAt malformed p key d ∧ p ≠ .replica field) ∨
      p = .replica field ∧ c.HeldAt malformed (.primary field) key d := by
  cases h with
  | near entry => exact .inl ⟨.near entry, Place.noConfusion⟩
  | primary bytes hvalue decoded =>
      exact .inl ⟨.primary bytes hvalue decoded, Place.noConfusion⟩
  | replica bytes hvalue decoded =>
      by_cases hk : encode key = field
      · subst hk
        exact .inr ⟨rfl, .primary bytes (by simpa [Cluster.putReplica] using hvalue) decoded⟩
      · refine .inl ⟨.replica bytes (by simpa [Cluster.putReplica, hk] using hvalue) decoded, ?_⟩
        intro heq
        cases heq
        exact hk rfl
  | hand running inHand => exact .inl ⟨.hand running inHand, Place.noConfusion⟩

/-- What `setToRedis` stores decodes to the object in hand. -/
theorem HeldAt.of_setToRedis {k : String} {d' : ObjectDTO} {returned : Bool}
    (h : (c.setToRedis k d' returned).HeldAt malformed p key d) :
    (c.HeldAt malformed p key d ∧ (p = .primary (encode k) → c.primary (encode k) ≠ none)) ∨
      p = .primary (encode k) ∧ c.primary (encode k) = none ∧ k = key ∧ d' = d := by
  unfold Cluster.setToRedis at h
  split at h
  · rename_i bytes hbytes hnone
    rcases h.of_putPrimary with ⟨hheld, hne⟩ | ⟨bs, hp, hk, hbs, hdecoded⟩
    · exact .inl ⟨hheld, fun hp => absurd hp hne⟩
    · obtain rfl := Option.some.inj hbs
      rw [ObjectDTO.fromBytes_of_toBytes malformed hbytes] at hdecoded
      exact .inr ⟨hp, hnone, encode_injective hk, Except.ok.inj hdecoded⟩
  · refine .inl ⟨h, ?_⟩
    rintro rfl hnone
    generalize hfield : encode k = field at h hnone
    generalize hplace : Place.primary field = place at h
    cases h with
    | primary bytes hvalue decoded =>
        cases hplace
        rw [hvalue] at hnone
        cases hnone
    | near | replica | hand => cases hplace

theorem setToRedis_false (c : Cluster) (k : String) (d : ObjectDTO) :
    c.setToRedis k d false = c := by
  unfold Cluster.setToRedis
  split
  · rename_i hfalse
    cases hfalse
  · rfl

theorem getFromRedis_heldAt {returned : Bool}
    (h : c.getFromRedis malformed key returned = some d) :
    c.HeldAt malformed (.replica (encode key)) key d := by
  unfold Cluster.getFromRedis at h
  split at h
  · split at h
    · rename_i bytes hvalue
      cases hdecoded : ObjectDTO.fromBytes malformed bytes with
      | ok d' =>
          rw [hdecoded] at h
          obtain rfl := Option.some.inj h
          exact .replica bytes hvalue hdecoded
      | error e =>
          rw [hdecoded] at h
          cases h
    · cases h
  · cases h

/-- The place was filled by the event, or is as it was. -/
def Follows (jdk : Jdk) (malformed : Bytes → String) (c : Cluster) (e : Event) (p : Place)
    (key : String) (d : ObjectDTO) : Prop :=
  (∃ source, c.flow e = some (p, source) ∧ source.Gives jdk malformed c e key d) ∨
    (∀ source, c.flow e ≠ some (p, source)) ∧ c.HeldAt malformed p key d

theorem Follows.of_flow {e : Event} {q : Place} {source : Source}
    (hflow : c.flow e = some (q, source))
    (h : (c.HeldAt malformed p key d ∧ p ≠ q) ∨ p = q ∧ source.Gives jdk malformed c e key d) :
    c.Follows jdk malformed e p key d := by
  rcases h with ⟨hheld, hne⟩ | ⟨rfl, hgives⟩
  · refine .inr ⟨?_, hheld⟩
    intro source' heq
    rw [hflow] at heq
    cases heq
    exact hne rfl
  · exact .inl ⟨source, hflow, hgives⟩

theorem Follows.of_none {e : Event} (hflow : c.flow e = none)
    (h : c.HeldAt malformed p key d) : c.Follows jdk malformed e p key d := by
  refine .inr ⟨?_, h⟩
  intro source heq
  rw [hflow] at heq
  cases heq

/-- `setToRedis` fills an empty field, and the call keeps the object. -/
theorem heldAt_stored {thread : ℕ} {r : Request} (hr : c.requests thread = some r)
    {d' : ObjectDTO} (hphase : r.phase = .setToRedis d') {returned : Bool}
    (h : ((c.setToRedis r.key d' returned).proceed thread r (.setToNearCache d')).HeldAt malformed
      p key d) :
    c.Follows jdk malformed (.next thread returned) p key d := by
  have hhand : c.HeldAt malformed (.hand thread r.server) r.key d' :=
    .hand hr (by rw [hphase]; rfl)
  have hbefore : (c.setToRedis r.key d' returned).HeldAt malformed p key d ∨
      p = .hand thread r.server ∧ c.HeldAt malformed p key d := by
    rcases h.of_proceed with ⟨hheld, _⟩ | ⟨rfl, rfl, hd⟩
    · exact .inl hheld
    · obtain rfl := Option.some.inj hd
      exact .inr ⟨rfl, hhand⟩
  cases returned with
  | true =>
      by_cases hnone : c.primary (encode r.key) = none
      · have hflow : c.flow (.next thread true) =
            some (.primary (encode r.key), .place (.hand thread r.server)) := by
          simp only [flow, hr, hphase, hnone, if_true]
        refine .of_flow hflow ?_
        rcases hbefore with hheld | ⟨rfl, hheld⟩
        · rcases hheld.of_setToRedis with ⟨hheld, hfull⟩ | ⟨hp, _, rfl, rfl⟩
          · exact .inl ⟨hheld, fun hp => hfull hp hnone⟩
          · exact .inr ⟨hp, hhand⟩
        · exact .inl ⟨hheld, Place.noConfusion⟩
      · apply Follows.of_none (by simp only [flow, hr, hphase, hnone, if_false])
        rcases hbefore with hheld | ⟨_, hheld⟩
        · rcases hheld.of_setToRedis with ⟨hheld, _⟩ | ⟨_, hempty, _⟩
          · exact hheld
          · exact absurd hempty hnone
        · exact hheld
  | false =>
      apply Follows.of_none (by simp only [flow, hr, hphase])
      rw [setToRedis_false] at hbefore
      rcases hbefore with hheld | ⟨_, hheld⟩
      · exact hheld
      · exact hheld

theorem heldAt_next {thread : ℕ} {r : Request} (hr : c.requests thread = some r)
    {returned : Bool} (h : (c.next jdk malformed thread r returned).HeldAt malformed p key d) :
    c.Follows jdk malformed (.next thread returned) p key d := by
  have hmoves := moves_next jdk malformed c thread r returned
  generalize c.next jdk malformed thread r returned = c' at h hmoves
  cases hmoves with
  | nearHit hphase =>
      exact .of_none (by simp only [flow, hr, hphase]) h.of_finish.1
  | nearMiss hphase =>
      apply Follows.of_none (by simp only [flow, hr, hphase])
      rcases h.of_proceed with ⟨hheld, _⟩ | ⟨_, _, hd⟩
      · exact hheld
      · cases hd
  | redisHit hphase hhit =>
      cases returned with
      | true =>
          have hflow : c.flow (.next thread true) =
              some (.hand thread r.server, .place (.replica (encode r.key))) := by
            simp only [flow, hr, hphase]
          refine .of_flow hflow ?_
          rcases h.of_proceed with ⟨hheld, hne⟩ | ⟨hp, rfl, hd⟩
          · exact .inl ⟨hheld, hne _⟩
          · obtain rfl := Option.some.inj hd
            exact .inr ⟨hp, getFromRedis_heldAt hhit⟩
      | false => cases hhit
  | redisMiss hphase =>
      have hbefore : c.HeldAt malformed p key d ∧ ∀ server, p ≠ .hand thread server := by
        rcases h.of_proceed with hheld | ⟨_, _, hd⟩
        · exact hheld
        · cases hd
      cases returned with
      | true =>
          have hflow : c.flow (.next thread true) =
              some (.hand thread r.server, .place (.replica (encode r.key))) := by
            simp only [flow, hr, hphase]
          exact .of_flow hflow (.inl ⟨hbefore.1, hbefore.2 _⟩)
      | false => exact .of_none (by simp only [flow, hr, hphase]) hbefore.1
  | read hphase hrow =>
      have hflow : c.flow (.next thread true) = some (.hand thread r.server, .table r.key) := by
        simp only [flow, hr, hphase]
      refine .of_flow hflow ?_
      rcases h.of_proceed with ⟨hheld, hne⟩ | ⟨hp, rfl, hd⟩
      · exact .inl ⟨hheld, hne _⟩
      · obtain rfl := Option.some.inj hd
        exact .inr ⟨hp, rfl, thread, r, rfl, hr, hphase, rfl, hrow⟩
  | readNone hphase =>
      have hbefore := h.of_finish
      cases returned with
      | true =>
          have hflow : c.flow (.next thread true) = some (.hand thread r.server, .table r.key) := by
            simp only [flow, hr, hphase]
          exact .of_flow hflow (.inl ⟨hbefore.1, hbefore.2 _⟩)
      | false => exact .of_none (by simp only [flow, hr, hphase]) hbefore.1
  | stored hphase => exact heldAt_stored hr hphase h
  | cached hphase =>
      have hflow : c.flow (.next thread returned) =
          some (.near r.server r.key, .place (.hand thread r.server)) := by
        simp only [flow, hr, hphase]
      refine .of_flow hflow ?_
      rcases h.of_finish.1.of_putNear with hheld | ⟨hp, rfl, hd⟩
      · exact .inl hheld
      · obtain rfl := Option.some.inj hd
        exact .inr ⟨hp, .hand hr (by rw [hphase]; rfl)⟩

/-- **A place holds what it held before, or what its source held.** -/
theorem heldAt_step {e : Event} (hstep : c.step jdk malformed e = some c')
    (h : c'.HeldAt malformed p key d) : c.Follows jdk malformed e p key d := by
  cases e with
  | getFullObject thread server k =>
      simp only [step] at hstep
      split at hstep
      · obtain rfl := Option.some.inj hstep
        apply Follows.of_none rfl
        rcases h.of_setRequest with ⟨hheld, _⟩ | ⟨r, hr, _, _, hd⟩
        · exact hheld
        · obtain rfl := Option.some.inj hr
          cases hd
      · cases hstep
  | next thread returned =>
      simp only [step] at hstep
      split at hstep
      · rename_i r hr
        obtain rfl := Option.some.inj hstep
        exact heldAt_next hr h
      · cases hstep
  | commit objects =>
      obtain rfl := Option.some.inj hstep
      apply Follows.of_none rfl
      cases h with
      | near entry => exact .near entry
      | primary bytes value decoded => exact .primary bytes value decoded
      | replica bytes value decoded => exact .replica bytes value decoded
      | hand running inHand =>
          obtain ⟨r₀, hr₀, rfl⟩ := Option.map_eq_some_iff.mp running
          exact .hand (r := r₀) hr₀ inHand
  | evictNear server k =>
      obtain rfl := Option.some.inj hstep
      apply Follows.of_none rfl
      rcases h.of_putNear with ⟨hheld, _⟩ | ⟨_, _, hd⟩
      · exact hheld
      · cases hd
  | evictRedis field =>
      obtain rfl := Option.some.inj hstep
      apply Follows.of_none rfl
      rcases h.of_putPrimary with ⟨hheld, _⟩ | ⟨_, _, _, hvalue, _⟩
      · exact hheld
      · cases hvalue
  | replicate field =>
      obtain rfl := Option.some.inj hstep
      exact .of_flow rfl h.of_putReplica

/-- A step gives the caches and the calls nothing but what they held already and what
`ObjectRepository.getFullObject` returned. -/
theorem holds_step {e : Event} (hstep : c.step jdk malformed e = some c')
    (h : c'.Holds malformed key d) :
    c.Holds malformed key d ∨ c.ReadsFromDB jdk key d e := by
  obtain ⟨p, hp⟩ := holds_iff.mp h
  rcases heldAt_step hstep hp with ⟨source, _, hgives⟩ | ⟨_, hheld⟩
  · cases source with
    | place q => exact .inl (holds_iff.mpr ⟨q, hgives⟩)
    | table k => exact .inr hgives.2
  · exact .inl (holds_iff.mpr ⟨p, hheld⟩)

end Held

/-! ## The table and the calls -/

theorem setToRedis_objects (c : Cluster) (key : String) (d : ObjectDTO) (returned : Bool) :
    (c.setToRedis key d returned).objects = c.objects := by
  unfold Cluster.setToRedis
  split <;> rfl

theorem setToRedis_requests (c : Cluster) (key : String) (d : ObjectDTO) (returned : Bool) :
    (c.setToRedis key d returned).requests = c.requests := by
  unfold Cluster.setToRedis
  split <;> rfl

theorem objects_next (c : Cluster) (thread : ℕ) (r : Request) (returned : Bool) :
    (c.next jdk malformed thread r returned).objects = c.objects := by
  have hmoves := moves_next jdk malformed c thread r returned
  generalize c.next jdk malformed thread r returned = c' at hmoves
  cases hmoves with
  | stored => exact setToRedis_objects c _ _ returned
  | nearHit | nearMiss | redisHit | redisMiss | read | readNone | cached => rfl

/-- Only a commit changes the table. -/
theorem objects_step {c c' : Cluster} {e : Event} (hstep : c.step jdk malformed e = some c') :
    e = .commit c'.objects ∨ c'.objects = c.objects := by
  cases e with
  | getFullObject thread server key =>
      simp only [step] at hstep
      split at hstep
      · obtain rfl := Option.some.inj hstep
        exact .inr rfl
      · cases hstep
  | next thread returned =>
      simp only [step] at hstep
      split at hstep
      · rename_i r hr
        obtain rfl := Option.some.inj hstep
        exact .inr (objects_next c thread r returned)
      · cases hstep
  | commit objects =>
      obtain rfl := Option.some.inj hstep
      exact .inl rfl
  | evictNear | evictRedis | replicate =>
      obtain rfl := Option.some.inj hstep
      exact .inr rfl

theorem requests_next {c : Cluster} {thread : ℕ} {r : Request}
    (hr : c.requests thread = some r) {returned : Bool} {t : ℕ} {r' : Request}
    (hr' : (c.next jdk malformed thread r returned).requests t = some r') :
    ∃ r₀, c.requests t = some r₀ ∧ r₀.server = r'.server ∧ r₀.key = r'.key := by
  have hmoves := moves_next jdk malformed c thread r returned
  generalize c.next jdk malformed thread r returned = c' at hr' hmoves
  by_cases ht : t = thread
  · subst ht
    refine ⟨r, hr, ?_⟩
    cases hmoves with
    | nearHit | readNone | cached => simp [finish, setRequest] at hr'
    | nearMiss | redisHit | redisMiss | read | stored =>
        simp only [proceed, setRequest, Function.update_self, Option.some.injEq] at hr'
        subst hr'
        exact ⟨rfl, rfl⟩
  · refine ⟨r', ?_, rfl, rfl⟩
    cases hmoves with
    | nearHit | readNone | cached | nearMiss | redisHit | redisMiss | read =>
        simpa [finish, proceed, setRequest, putNear, ht] using hr'
    | stored => simpa [proceed, setRequest, setToRedis_requests, ht] using hr'

/-- A call's key and server stay; a new one comes with its event. -/
theorem requests_step {c c' : Cluster} {e : Event}
    (hstep : c.step jdk malformed e = some c') {thread : ℕ} {r' : Request}
    (hr' : c'.requests thread = some r') :
    e = .getFullObject thread r'.server r'.key ∨
      (∀ server key, e ≠ .getFullObject thread server key) ∧
        ∃ r, c.requests thread = some r ∧ r.server = r'.server ∧ r.key = r'.key := by
  cases e with
  | getFullObject t server key =>
      simp only [step] at hstep
      split at hstep
      · obtain rfl := Option.some.inj hstep
        by_cases ht : thread = t
        · subst ht
          simp only [setRequest, Function.update_self, Option.some.injEq] at hr'
          subst hr'
          exact .inl rfl
        · refine .inr ⟨?_, r', by simpa [setRequest, ht] using hr', rfl, rfl⟩
          intro server' key' heq
          cases heq
          exact ht rfl
      · cases hstep
  | next t returned =>
      refine .inr ⟨fun _ _ => Event.noConfusion, ?_⟩
      simp only [step] at hstep
      split at hstep
      · rename_i r hr
        obtain rfl := Option.some.inj hstep
        exact requests_next hr hr'
      · cases hstep
  | commit objects =>
      refine .inr ⟨fun _ _ => Event.noConfusion, ?_⟩
      obtain rfl := Option.some.inj hstep
      obtain ⟨r₀, hr₀, rfl⟩ := Option.map_eq_some_iff.mp hr'
      exact ⟨r₀, hr₀, rfl, rfl⟩
  | evictNear | evictRedis | replicate =>
      refine .inr ⟨fun _ _ => Event.noConfusion, ?_⟩
      obtain rfl := Option.some.inj hstep
      exact ⟨r', hr', rfl, rfl⟩

end Cluster

end AuroraSizing.Cache

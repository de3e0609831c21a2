import AuroraSizing.Cache.Coherence

/-!
# Cache entries are snapshots

A stale entry is still a whole one. Whatever transactions commit, what a cache holds
for a key is an object that `ObjectRepository.getFullObject` returned for that very
key, bytes that are stored decode, and an answer carries the name it was asked for up
to letter case. The invariant is stated over what has been read so far, since nothing
in the state remembers it.
-/

namespace AuroraSizing.Cache.Cluster

open Foundation.System Foundation.Utf8

/-- A commit leaves every row under its own lower-cased name. -/
def KeepsLower (jdk : Jdk) (_ : Cluster) : Event → Prop
  | .commit objects => LowerNames jdk objects.rows
  | .getFullObject _ _ _ | .next _ _ | .evictNear _ _ | .evictRedis _ | .replicate _ => True

/-- The bytes of a field of `objMap` decode, to an object in `H` for the field's key. -/
def Stored (malformed : Bytes → String) (H : String × ObjectDTO → Prop) (field bytes : Bytes) :
    Prop :=
  ∃ key d, field = encode key ∧ ObjectDTO.fromBytes malformed bytes = .ok d ∧ H (key, d)

/-- Every entry and every answer is in `H`. -/
structure Snapshots (jdk : Jdk) (malformed : Bytes → String) (H : String × ObjectDTO → Prop)
    (c : Cluster) : Prop where
  near : ∀ server key d, c.objMapCache server key = some d → H (key, d)
  primary : ∀ field bytes, c.primary field = some bytes → Stored malformed H field bytes
  replica : ∀ field bytes, c.replica field = some bytes → Stored malformed H field bytes
  answers : ∀ a ∈ c.answers, ∀ m, a.reply = .ok m →
    jdk.toLowerCase m.metadata.securityName = jdk.toLowerCase a.key ∧
      ∃ d, m = d.toCmdGetByNameExtResponseMsgOnSuccess ∧ H (a.key, d)

/-- `H` is what has been read. -/
structure History (jdk : Jdk) (malformed : Bytes → String) (H : String × ObjectDTO → Prop)
    (c : Cluster) : Prop where
  lower : LowerNames jdk c.objects.rows
  named : ∀ key d, H (key, d) → jdk.toLowerCase d.name = jdk.toLowerCase key
  held : ∀ key d, c.Holds malformed key d → H (key, d)
  decodes : ∀ field bytes, c.primary field = some bytes ∨ c.replica field = some bytes →
    ∃ key d, field = encode key ∧ ObjectDTO.fromBytes malformed bytes = .ok d
  answered : ∀ a ∈ c.answers, ∀ m, a.reply = .ok m →
    ∃ d, m = d.toCmdGetByNameExtResponseMsgOnSuccess ∧ H (a.key, d)

section Steps

variable {jdk : Jdk} {malformed : Bytes → String} {H : String × ObjectDTO → Prop}
  {c c' : Cluster} {e : Event}

theorem History.snapshots (h : History jdk malformed H c) : Snapshots jdk malformed H c where
  near server key d hentry := h.held key d (.near server hentry)
  primary field bytes hvalue := by
    obtain ⟨key, d, rfl, hdecoded⟩ := h.decodes field bytes (.inl hvalue)
    exact ⟨key, d, rfl, hdecoded, h.held key d (.primary bytes hvalue hdecoded)⟩
  replica field bytes hvalue := by
    obtain ⟨key, d, rfl, hdecoded⟩ := h.decodes field bytes (.inr hvalue)
    exact ⟨key, d, rfl, hdecoded, h.held key d (.replica bytes hvalue hdecoded)⟩
  answers := by
    intro a ha m hm
    obtain ⟨d, rfl, hd⟩ := h.answered a ha m hm
    exact ⟨h.named a.key d hd, d, rfl, hd⟩

theorem history_start {objects : ObjectsTable} (hlower : LowerNames jdk objects.rows) :
    History jdk malformed (fun _ => False) (start objects) where
  lower := hlower
  named _ _ h := h.elim
  held _ _ h := absurd h not_holds_start
  decodes := by
    intro field bytes h
    rcases h with h | h
    · cases h
    · cases h
  answered _ ha := nomatch ha

/-- The table answers for a key with a row of that name, up to letter case. -/
theorem getFullObject_name {objects : ObjectsTable} (hlower : LowerNames jdk objects.rows)
    {key : String} {d : ObjectDTO}
    (hrow : ObjectRepository.getFullObject jdk objects key = some d) :
    jdk.toLowerCase d.name = jdk.toLowerCase key := by
  obtain ⟨row, hlookup, rfl⟩ := Option.map_eq_some_iff.mp hrow
  obtain ⟨hmem, hkey⟩ :=
    (Foundation.KeyedRows.lookup_eq_some objects.objectLowerName).mp hlookup
  exact (hlower row hmem).symm.trans hkey

/-! ## Steps -/

theorem primary_next (jdk : Jdk) (malformed : Bytes → String) (c : Cluster) (thread : ℕ)
    (r : Request) (returned : Bool) :
    (c.next jdk malformed thread r returned).primary = c.primary ∨
      ∃ (d : ObjectDTO) (bytes : Bytes), d.toBytes = .ok bytes ∧
        (c.next jdk malformed thread r returned).primary =
          Function.update c.primary (encode r.key) (some bytes) := by
  have hmoves := moves_next jdk malformed c thread r returned
  generalize c.next jdk malformed thread r returned = c' at hmoves
  cases hmoves with
  | @stored _ d =>
      simp only [proceed, setRequest, setToRedis]
      split
      · rename_i bytes hbytes _
        exact .inr ⟨d, bytes, hbytes, rfl⟩
      · exact .inl rfl
  | nearHit | nearMiss | redisHit | redisMiss | read | readNone | cached => exact .inl rfl

theorem replica_next (jdk : Jdk) (malformed : Bytes → String) (c : Cluster) (thread : ℕ)
    (r : Request) (returned : Bool) :
    (c.next jdk malformed thread r returned).replica = c.replica := by
  have hmoves := moves_next jdk malformed c thread r returned
  generalize c.next jdk malformed thread r returned = c' at hmoves
  cases hmoves with
  | stored =>
      simp only [proceed, setRequest, setToRedis]
      split <;> rfl
  | nearHit | nearMiss | redisHit | redisMiss | read | readNone | cached => rfl

/-- The fields of both hashes are those `setToRedis` has encoded. -/
theorem decodes_step (hstep : c.step jdk malformed e = some c')
    (h : ∀ field bytes, c.primary field = some bytes ∨ c.replica field = some bytes →
      ∃ key d, field = encode key ∧ ObjectDTO.fromBytes malformed bytes = .ok d)
    {field bytes : Bytes} (hvalue : c'.primary field = some bytes ∨ c'.replica field = some bytes) :
    ∃ key d, field = encode key ∧ ObjectDTO.fromBytes malformed bytes = .ok d := by
  cases e with
  | getFullObject thread server key =>
      simp only [step] at hstep
      split at hstep
      · obtain rfl := Option.some.inj hstep
        exact h field bytes hvalue
      · cases hstep
  | next thread returned =>
      simp only [step] at hstep
      split at hstep
      · rename_i r hr
        obtain rfl := Option.some.inj hstep
        rw [replica_next] at hvalue
        rcases primary_next jdk malformed c thread r returned with
          hsame | ⟨d, bs, hbs, hprimary⟩
        · rw [hsame] at hvalue
          exact h field bytes hvalue
        · rw [hprimary] at hvalue
          by_cases hfield : field = encode r.key
          · subst hfield
            rw [Function.update_self] at hvalue
            rcases hvalue with hvalue | hvalue
            · obtain rfl := Option.some.inj hvalue
              exact ⟨r.key, d, rfl, ObjectDTO.fromBytes_of_toBytes malformed hbs⟩
            · exact h _ bytes (.inr hvalue)
          · rw [Function.update_of_ne hfield] at hvalue
            exact h field bytes hvalue
      · cases hstep
  | commit | evictNear =>
      obtain rfl := Option.some.inj hstep
      exact h field bytes hvalue
  | evictRedis f =>
      obtain rfl := Option.some.inj hstep
      apply h field bytes
      rcases hvalue with hvalue | hvalue
      · by_cases hf : field = f
        · simp [putPrimary, hf] at hvalue
        · exact .inl (by simpa [putPrimary, hf] using hvalue)
      · exact .inr hvalue
  | replicate f =>
      obtain rfl := Option.some.inj hstep
      apply h field bytes
      rcases hvalue with hvalue | hvalue
      · exact .inl hvalue
      · by_cases hf : field = f
        · subst hf
          exact .inl (by simpa [putReplica] using hvalue)
        · exact .inr (by simpa [putReplica, hf] using hvalue)

theorem answered_finish {thread : ℕ} {r : Request} {o : Option ObjectDTO} {a : Answer}
    (ha : a ∈ (c.finish thread r o).answers) {m : MsgOnSuccess} (hm : a.reply = .ok m) :
    a ∈ c.answers ∨
      ∃ d, o = some d ∧ a.key = r.key ∧ m = d.toCmdGetByNameExtResponseMsgOnSuccess := by
  rcases List.mem_append.mp ha with hold | hnew
  · exact .inl hold
  · obtain rfl := List.mem_singleton.mp hnew
    cases o with
    | some d => exact .inr ⟨d, rfl, rfl, (Except.ok.inj hm).symm⟩
    | none => cases hm

/-- What a call answers was held for its key. -/
theorem answered_step (hstep : c.step jdk malformed e = some c') {a : Answer}
    (ha : a ∈ c'.answers) {m : MsgOnSuccess} (hm : a.reply = .ok m) :
    a ∈ c.answers ∨
      ∃ d, m = d.toCmdGetByNameExtResponseMsgOnSuccess ∧ c.Holds malformed a.key d := by
  cases e with
  | getFullObject thread server key =>
      simp only [step] at hstep
      split at hstep
      · obtain rfl := Option.some.inj hstep
        exact .inl ha
      · cases hstep
  | next thread returned =>
      simp only [step] at hstep
      split at hstep
      · rename_i r hr
        obtain rfl := Option.some.inj hstep
        have hmoves := moves_next jdk malformed c thread r returned
        generalize c.next jdk malformed thread r returned = c' at ha hmoves
        cases hmoves with
        | nearHit _ hentry =>
            rcases answered_finish ha hm with hold | ⟨d, hd, hkey, hmsg⟩
            · exact .inl hold
            · obtain rfl := Option.some.inj hd
              exact .inr ⟨_, hmsg, hkey ▸ .near r.server hentry⟩
        | nearMiss | redisHit | redisMiss | read => exact .inl ha
        | readNone =>
            rcases answered_finish ha hm with hold | ⟨d, hd, _⟩
            · exact .inl hold
            · cases hd
        | stored =>
            have hsame : ∀ d, (c.setToRedis r.key d returned).answers = c.answers := by
              intro d
              unfold setToRedis
              split <;> rfl
            exact .inl (hsame _ ▸ ha)
        | cached hphase =>
            rcases answered_finish ha hm with hold | ⟨d, hd, hkey, hmsg⟩
            · exact .inl hold
            · obtain rfl := Option.some.inj hd
              exact .inr ⟨_, hmsg, .request thread r hr hkey.symm (by rw [hphase]; rfl)⟩
      · cases hstep
  | commit | evictNear | evictRedis | replicate =>
      obtain rfl := Option.some.inj hstep
      exact .inl ha

theorem history_step (h : History jdk malformed H c) (hkeeps : c.KeepsLower jdk e)
    (hstep : c.step jdk malformed e = some c') :
    History jdk malformed (fun x => H x ∨ c.ReadsFromDB jdk x.1 x.2 e) c' where
  lower := by
    rcases objects_step hstep with rfl | hsame
    · exact hkeeps
    · rw [hsame]
      exact h.lower
  named := by
    intro key d hd
    rcases hd with hd | ⟨_, _, _, _, _, _, hrow⟩
    · exact h.named key d hd
    · exact getFullObject_name h.lower hrow
  held := by
    intro key d hheld
    rcases holds_step hstep hheld with hbefore | hread
    · exact .inl (h.held key d hbefore)
    · exact .inr hread
  decodes := fun _ _ hvalue => decodes_step hstep h.decodes hvalue
  answered := by
    intro a ha m hm
    rcases answered_step hstep ha hm with hold | ⟨d, hmsg, hheld⟩
    · obtain ⟨d, hmsg, hd⟩ := h.answered a hold m hm
      exact ⟨d, hmsg, .inl hd⟩
    · exact ⟨d, hmsg, .inl (h.held a.key d hheld)⟩

end Steps

/-- **Every entry of a cache is an object that was read for its key, and every answer is
such an object.** -/
theorem snapshots_of_keeps_lower {jdk : Jdk} {malformed : Bytes → String}
    {objects : ObjectsTable} {es : List Event} {c : Cluster}
    (hlower : LowerNames jdk objects.rows)
    (hok : Along (step jdk malformed) (KeepsLower jdk) (start objects) es)
    (hrun : run (step jdk malformed) (start objects) es = some c) :
    Snapshots jdk malformed
      (fun x => Occurs (step jdk malformed) (ReadsFromDB jdk x.1 x.2) (start objects) es) c := by
  have hhistory := run_history (History jdk malformed)
    (fun _ _ _ _ h hkeeps hstep => history_step h hkeeps hstep) (history_start hlower) hok hrun
  simpa only [false_or] using hhistory.snapshots

/-! ## A stale entry -/

theorem lower_objectsAfter_update :
    LowerNames Jdk.ascii (objectsAfter [insertSec, updateSec]).rows := by
  unfold LowerNames
  decide

/-- The near cache still has the object from before the update, and it is one that was
read. -/
theorem snapshots_after_update :
    ∃ c, run (step Jdk.ascii fun _ => "") (start (objectsAfter [insertSec]))
        (missingCall 0 0 "testSec" ++ [.commit (objectsAfter [insertSec, updateSec])] ++
          nearCall 1 0 "testSec") = some c ∧
      c.answers.length = 2 ∧
      Snapshots Jdk.ascii (fun _ => "")
        (fun x => Occurs (step Jdk.ascii fun _ => "") (ReadsFromDB Jdk.ascii x.1 x.2)
          (start (objectsAfter [insertSec]))
          (missingCall 0 0 "testSec" ++ [.commit (objectsAfter [insertSec, updateSec])] ++
            nearCall 1 0 "testSec")) c := by
  have hlower : LowerNames Jdk.ascii (objectsAfter [insertSec]).rows := by
    unfold LowerNames
    decide
  have hok : Along (step Jdk.ascii fun _ => "") (KeepsLower Jdk.ascii)
      (start (objectsAfter [insertSec]))
      (missingCall 0 0 "testSec" ++ [.commit (objectsAfter [insertSec, updateSec])] ++
        nearCall 1 0 "testSec") := by
    apply Along.of_forall
    intro e he s
    cases e with
    | commit objects =>
        simp only [missingCall, nearCall, List.mem_append, List.mem_cons, List.mem_replicate,
          List.not_mem_nil, or_false, reduceCtorEq, and_false, false_or, Event.commit.injEq] at he
        rw [he]
        exact lower_objectsAfter_update
    | _ => trivial
  exact ⟨_, rfl, rfl, snapshots_of_keeps_lower hlower hok rfl⟩

end AuroraSizing.Cache.Cluster

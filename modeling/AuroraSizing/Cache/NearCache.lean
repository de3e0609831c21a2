import AuroraSizing.Foundation.System
import AuroraSizing.Objects.Tables
import Mathlib.Logic.Function.Basic

/-!
# The two cache levels in front of `getFullObject`

`NearCachedObjectRepository` looks a key up in the heap of its own server, then
in Redis, then in the database. Servers share Redis, write to its primary and
read from its replica; each has a near cache of its own. An event is one
operation of one thread, a commit, or one of the things a cache may do by itself.

The caches are keyed by the spelling of the request, the table by its lower case.
-/

namespace AuroraSizing.Cache

open Foundation.Utf8

/-- `CmdGetByNameExtResponse.MsgOnSuccess` -/
structure MsgOnSuccess where
  metadata : Metadata
  mem : Bytes
deriving DecidableEq, Repr

def ObjectDTO.toCmdGetByNameExtResponseMsgOnSuccess (d : ObjectDTO) : MsgOnSuccess where
  mem := d.mem
  metadata :=
    { securityName := d.name
      securityType := d.typeId
      lastTxnId := d.lastTransaction
      updateCount := d.updateCount
      dateCreated := d.dateCreated
      dbIdUpdated := d.dbIdUpdated
      versionInfo := d.versionInfo
      timeUpdate := d.timeUpdated }

/-- `objectDTO.get().toCmdGetByNameExtResponseMsgOnSuccess()`, with the cache and
without it. -/
def reply (objectDTO : Option ObjectDTO) : Except Throwable MsgOnSuccess :=
  match objectDTO with
  | some d => .ok d.toCmdGetByNameExtResponseMsgOnSuccess
  | none => .error .noSuchElementException

/-! ## The state -/

/-- The next operation of a `getFullObject`. -/
inductive Phase where
  | getFromNearCache
  | getFromRedis
  | getFromDB
  | setToRedis (objectDTO : ObjectDTO)
  | setToNearCache (objectDTO : ObjectDTO)

/-- A `getFullObject` in progress. `uncached` is what `ObjectRepository.getFullObject`
answers for its key at the points it has passed through. -/
structure Request where
  server : ℕ
  key : String
  phase : Phase
  uncached : List (Option ObjectDTO)

/-- A `getFullObject` that has returned. -/
structure Answer where
  key : String
  reply : Except Throwable MsgOnSuccess
  uncached : List (Except Throwable MsgOnSuccess)
deriving DecidableEq

structure Cluster where
  /-- The committed table. -/
  objects : ObjectsTable
  /-- The near cache of each server. -/
  objMapCache : ℕ → String → Option ObjectDTO
  /-- The Redis hash `objMap`, where it is written. -/
  primary : Bytes → Option Bytes
  /-- The Redis hash `objMap`, where it is read. -/
  replica : Bytes → Option Bytes
  /-- What each thread is doing. -/
  requests : ℕ → Option Request
  answers : List Answer

inductive Event where
  | getFullObject (thread server : ℕ) (key : String)
  /-- The thread's next operation. `returned` is false when the Redis command or the
  query raises; a near cache does not. -/
  | next (thread : ℕ) (returned : Bool)
  /-- A transaction commits and leaves this table, whatever ran beside it. -/
  | commit (objects : ObjectsTable)
  | evictNear (server : ℕ) (key : String)
  | evictRedis (field : Bytes)
  | replicate (field : Bytes)

namespace Cluster

/-- The servers have just started, on an empty Redis. -/
def start (objects : ObjectsTable) : Cluster where
  objects := objects
  objMapCache := fun _ _ => none
  primary := fun _ => none
  replica := fun _ => none
  requests := fun _ => none
  answers := []

def setRequest (c : Cluster) (thread : ℕ) (r : Option Request) : Cluster :=
  { c with requests := Function.update c.requests thread r }

def proceed (c : Cluster) (thread : ℕ) (r : Request) (phase : Phase) : Cluster :=
  c.setRequest thread (some { r with phase := phase })

def finish (c : Cluster) (thread : ℕ) (r : Request) (objectDTO : Option ObjectDTO) : Cluster :=
  { c.setRequest thread none with
    answers := c.answers ++ [⟨r.key, Cache.reply objectDTO, r.uncached.map Cache.reply⟩] }

/-- The near cache of a server with this entry, or without one. -/
def putNear (c : Cluster) (server : ℕ) (key : String) (entry : Option ObjectDTO) : Cluster :=
  { c with
    objMapCache := Function.update c.objMapCache server
      (Function.update (c.objMapCache server) key entry) }

def putPrimary (c : Cluster) (field : Bytes) (value : Option Bytes) : Cluster :=
  { c with primary := Function.update c.primary field value }

def putReplica (c : Cluster) (field : Bytes) (value : Option Bytes) : Cluster :=
  { c with replica := Function.update c.replica field value }

variable (jdk : Jdk) (malformed : Bytes → String)

/-- A Redis command that raises, bytes that do not decode and a missing field are all
a miss. -/
def getFromRedis (c : Cluster) (key : String) (returned : Bool) : Option ObjectDTO :=
  if returned then
    match c.replica (encode key) with
    | some bytes => (ObjectDTO.fromBytes malformed bytes).toOption
    | none => none
  else none

/-- `hsetnx` leaves a field that is there; an object `toBytes` throws on is not
stored. -/
def setToRedis (c : Cluster) (key : String) (objectDTO : ObjectDTO) (returned : Bool) :
    Cluster :=
  match objectDTO.toBytes, c.primary (encode key), returned with
  | .ok bytes, none, true => c.putPrimary (encode key) (some bytes)
  | _, _, _ => c

/-- The next operation of `getFullObject`. -/
def next (c : Cluster) (thread : ℕ) (r : Request) (returned : Bool) : Cluster :=
  match r.phase with
  | .getFromNearCache =>
      match c.objMapCache r.server r.key with
      | some fromNearCache => c.finish thread r (some fromNearCache)
      | none => c.proceed thread r .getFromRedis
  | .getFromRedis =>
      match c.getFromRedis malformed r.key returned with
      | some fromCache => c.proceed thread r (.setToNearCache fromCache)
      | none => c.proceed thread r .getFromDB
  | .getFromDB =>
      let objectDTO :=
        if returned then ObjectRepository.getFullObject jdk c.objects r.key else none
      let r := { r with uncached := r.uncached ++ [objectDTO] }
      match objectDTO with
      | some d => c.proceed thread r (.setToRedis d)
      | none => c.finish thread r none
  | .setToRedis d => (c.setToRedis r.key d returned).proceed thread r (.setToNearCache d)
  | .setToNearCache d => (c.putNear r.server r.key (some d)).finish thread r (some d)

def step (c : Cluster) : Event → Option Cluster
  | .getFullObject thread server key =>
      match c.requests thread with
      | none => some (c.setRequest thread (some
          ⟨server, key, .getFromNearCache, [ObjectRepository.getFullObject jdk c.objects key]⟩))
      | some _ => none
  | .next thread returned =>
      match c.requests thread with
      | some r => some (c.next jdk malformed thread r returned)
      | none => none
  | .commit objects =>
      some { c with
        objects := objects
        requests := fun thread => (c.requests thread).map fun r =>
          { r with uncached := r.uncached ++ [ObjectRepository.getFullObject jdk objects r.key] } }
  | .evictNear server key => some (c.putNear server key none)
  | .evictRedis field => some (c.putPrimary field none)
  | .replicate field => some (c.putReplica field (c.primary field))

/-! ## What an operation can do

`Moves` lists the outcomes of `next` with what decided them. -/

inductive Moves (c : Cluster) (thread : ℕ) (r : Request) : Bool → Cluster → Prop
  | nearHit {returned : Bool} {d : ObjectDTO} (phase : r.phase = .getFromNearCache)
      (entry : c.objMapCache r.server r.key = some d) :
      Moves c thread r returned (c.finish thread r (some d))
  | nearMiss {returned : Bool} (phase : r.phase = .getFromNearCache)
      (entry : c.objMapCache r.server r.key = none) :
      Moves c thread r returned (c.proceed thread r .getFromRedis)
  | redisHit {returned : Bool} {d : ObjectDTO} (phase : r.phase = .getFromRedis)
      (hit : c.getFromRedis malformed r.key returned = some d) :
      Moves c thread r returned (c.proceed thread r (.setToNearCache d))
  | redisMiss {returned : Bool} (phase : r.phase = .getFromRedis)
      (miss : c.getFromRedis malformed r.key returned = none) :
      Moves c thread r returned (c.proceed thread r .getFromDB)
  | read {d : ObjectDTO} (phase : r.phase = .getFromDB)
      (row : ObjectRepository.getFullObject jdk c.objects r.key = some d) :
      Moves c thread r true
        (c.proceed thread { r with uncached := r.uncached ++ [some d] } (.setToRedis d))
  | readNone {returned : Bool} (phase : r.phase = .getFromDB)
      (row : returned = true → ObjectRepository.getFullObject jdk c.objects r.key = none) :
      Moves c thread r returned
        (c.finish thread { r with uncached := r.uncached ++ [none] } none)
  | stored {returned : Bool} {d : ObjectDTO} (phase : r.phase = .setToRedis d) :
      Moves c thread r returned
        ((c.setToRedis r.key d returned).proceed thread r (.setToNearCache d))
  | cached {returned : Bool} {d : ObjectDTO} (phase : r.phase = .setToNearCache d) :
      Moves c thread r returned ((c.putNear r.server r.key (some d)).finish thread r (some d))

theorem moves_next (c : Cluster) (thread : ℕ) (r : Request) (returned : Bool) :
    Moves jdk malformed c thread r returned (c.next jdk malformed thread r returned) := by
  unfold next
  cases hphase : r.phase with
  | getFromNearCache =>
      cases hentry : c.objMapCache r.server r.key with
      | some d => exact .nearHit hphase hentry
      | none => exact .nearMiss hphase hentry
  | getFromRedis =>
      cases hhit : c.getFromRedis malformed r.key returned with
      | some d => exact .redisHit hphase hhit
      | none => exact .redisMiss hphase hhit
  | getFromDB =>
      cases returned with
      | true =>
          cases hrow : ObjectRepository.getFullObject jdk c.objects r.key with
          | some d =>
              simp only [if_true]
              exact .read hphase hrow
          | none =>
              simp only [if_true]
              exact .readNone hphase (fun _ => hrow)
      | false => exact .readNone hphase (fun h => absurd h Bool.false_ne_true)
  | setToRedis d => exact .stored hphase
  | setToNearCache d => exact .cached hphase

end Cluster

end AuroraSizing.Cache

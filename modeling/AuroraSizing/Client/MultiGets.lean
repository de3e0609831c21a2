import AuroraSizing.Transaction.Transactor

/-!
# The multi-gets of the Go client

`GetObjectMany` and `GetObjectManyExt` each start a goroutine that receives a stream of answers
and puts the objects among them on a channel. Both skip an answer without `MsgOnSuccess`, but the
second has read two fields of it before, and then all fields of its metadata, which may not be
there either. A `nil` that is read takes the whole process down.
-/

namespace AuroraSizing.Client

open Transaction

/-! ## What Go does with a `nil` -/

/-- A run-time panic is an error; a pointer may be `nil`. -/
inductive Panic where
  | nilDereference
deriving DecidableEq, Repr

def deref {α : Type} : Option α → Except Panic α
  | some a => .ok a
  | none => .error .nilDereference

/-! ## The loop -/

/-- How a stream ends. -/
inductive RecvError where
  | eof
  | status (text : String)
deriving DecidableEq, Repr

structure RecvStream (α : Type) where
  items : List α
  err : RecvError

inductive Ending where
  | closed
  | panicked (p : Panic)
deriving DecidableEq, Repr

/-- What a goroutine puts on its channel, and how it ends. -/
structure Goroutine (β : Type) where
  sent : List β
  ending : Ending
deriving DecidableEq, Repr

/-- The `for` loop over `Recv`; one turn puts an object on the channel, continues or panics. -/
def recvLoop {α β : Type} (turn : α → Except Panic (Option β)) : List α → RecvError → Goroutine β
  | [], .eof => ⟨[], .closed⟩
  | [], .status _ => ⟨[], .closed⟩
  | resp :: rest, err =>
      match turn resp with
      | .error p => ⟨[], .panicked p⟩
      | .ok none => recvLoop turn rest err
      | .ok (some obj) =>
          let g := recvLoop turn rest err
          { g with sent := obj :: g.sent }

/-! ## `GetObjectMany` -/

/-- The oneof `MessageResponse`; no handler reads the result codes. -/
inductive CmdGetManyByNameResponseStream where
  | msgOnSuccess (mem : Bytes)
  | msgOnFailure
deriving DecidableEq, Repr

structure Object where
  mem : Bytes
deriving DecidableEq, Repr

def CmdGetManyByNameResponseStream.getMsgOnSuccess :
    CmdGetManyByNameResponseStream → Option Bytes
  | .msgOnSuccess mem => some mem
  | .msgOnFailure => none

def GetObjectMany.turn (resp : CmdGetManyByNameResponseStream) : Except Panic (Option Object) :=
  match resp.getMsgOnSuccess with
  | none => .ok none
  | some mem => .ok (some ⟨mem⟩)

def GetObjectMany (stream : RecvStream CmdGetManyByNameResponseStream) : Goroutine Object :=
  recvLoop GetObjectMany.turn stream.items stream.err

/-! ## `GetObjectManyExt` -/

structure MsgOnSuccessExt where
  hasSucceeded : Bool
  metadata : Option Metadata
  mem : Bytes
deriving DecidableEq, Repr

/-- The oneof `RequestResponse`. -/
inductive CmdGetManyByNameExtResponseStream where
  | msgOnSuccess (v : MsgOnSuccessExt)
  | msgOnFailure
deriving DecidableEq, Repr

structure ObjectExt where
  mem : Bytes
  metadata : Option ModelMetadata
deriving DecidableEq, Repr

def CmdGetManyByNameExtResponseStream.getMsgOnSuccess :
    CmdGetManyByNameExtResponseStream → Option MsgOnSuccessExt
  | .msgOnSuccess v => some v
  | .msgOnFailure => none

def toModelMetadata (m : Metadata) : ModelMetadata where
  securityName := m.securityName
  securityType := m.securityType
  updateCount := m.updateCount
  dateCreated := m.dateCreated
  timeUpdated := m.timeUpdate
  dbIdUpdated := m.dbIdUpdated
  lastTxnId := m.lastTxnId
  versionInfo := m.versionInfo

/-- The fields of `*m` are read whether or not it is there. -/
def convertGrpcMetadataToModelMetadata (m : Option Metadata) : Except Panic ModelMetadata := do
  let m ← deref m
  return toModelMetadata m

def GetObjectManyExt.turn (resp : CmdGetManyByNameExtResponseStream) :
    Except Panic (Option ObjectExt) := do
  let v := resp.getMsgOnSuccess
  -- `fmt.Printf` is given `v.HasSucceeded` and `v.Metadata`
  let _ ← deref v
  match v with
  | none => return none
  | some v =>
      let metadata ← convertGrpcMetadataToModelMetadata v.metadata
      return some ⟨v.mem, some metadata⟩

def GetObjectManyExt (stream : RecvStream CmdGetManyByNameExtResponseStream) :
    Goroutine ObjectExt :=
  recvLoop GetObjectManyExt.turn stream.items stream.err

/-! ## Exactly the successes -/

/-- The object of an answer, with its metadata if it has some. -/
def CmdGetManyByNameResponseStream.success (resp : CmdGetManyByNameResponseStream) :
    Option Object :=
  resp.getMsgOnSuccess.map Object.mk

def CmdGetManyByNameExtResponseStream.success (resp : CmdGetManyByNameExtResponseStream) :
    Option ObjectExt :=
  resp.getMsgOnSuccess.map fun v => ⟨v.mem, v.metadata.map toModelMetadata⟩

/-- Both goroutines put exactly the successes on the channel, in order, and close it. -/
structure DeliversSuccesses (many : RecvStream CmdGetManyByNameResponseStream)
    (ext : RecvStream CmdGetManyByNameExtResponseStream) : Prop where
  many : GetObjectMany many =
    ⟨many.items.filterMap CmdGetManyByNameResponseStream.success, .closed⟩
  ext : GetObjectManyExt ext =
    ⟨ext.items.filterMap CmdGetManyByNameExtResponseStream.success, .closed⟩

/-- An answer with `MsgOnSuccess` and metadata. -/
def Complete (resp : CmdGetManyByNameExtResponseStream) : Prop :=
  ∃ hasSucceeded m mem, resp = .msgOnSuccess ⟨hasSucceeded, some m, mem⟩

/-- A loop whose turns do not panic delivers what they put, and closes. -/
theorem recvLoop_of_ok {α β : Type} {turn : α → Except Panic (Option β)} {f : α → Option β}
    {items : List α} (h : ∀ resp ∈ items, turn resp = .ok (f resp)) (err : RecvError) :
    recvLoop turn items err = ⟨items.filterMap f, .closed⟩ := by
  induction items with
  | nil => cases err <;> rfl
  | cons resp items ih =>
      have hrest := ih fun r hr => h r (List.mem_cons_of_mem _ hr)
      rw [recvLoop, h resp (List.mem_cons_self ..), hrest]
      cases hf : f resp with
      | none => rw [List.filterMap_cons_none hf]
      | some obj => rw [List.filterMap_cons_some hf]

/-- A loop that closes its channel has had no turn that panics. -/
theorem ok_of_closed {α β : Type} {turn : α → Except Panic (Option β)} {items : List α}
    {err : RecvError} (h : (recvLoop turn items err).ending = .closed) :
    ∀ resp ∈ items, ∃ o, turn resp = .ok o := by
  induction items with
  | nil => exact fun _ hr => absurd hr List.not_mem_nil
  | cons resp items ih =>
      rw [recvLoop] at h
      intro r hr
      cases hturn : turn resp with
      | error p =>
          rw [hturn] at h
          cases h
      | ok o =>
          have hrest : (recvLoop turn items err).ending = .closed := by
            rw [hturn] at h
            cases o with
            | none => exact h
            | some obj => exact h
          rcases List.mem_cons.mp hr with rfl | hr
          · exact ⟨o, hturn⟩
          · exact ih hrest r hr

/-- A turn goes through exactly for an answer that has all it reads. -/
theorem turn_eq_ok_iff (resp : CmdGetManyByNameExtResponseStream) :
    (∃ o, GetObjectManyExt.turn resp = .ok o) ↔ Complete resp := by
  constructor
  · rintro ⟨o, h⟩
    cases resp with
    | msgOnFailure => cases h
    | msgOnSuccess v =>
        obtain ⟨hasSucceeded, metadata, mem⟩ := v
        cases metadata with
        | none => cases h
        | some m => exact ⟨hasSucceeded, m, mem, rfl⟩
  · rintro ⟨hasSucceeded, m, mem, rfl⟩
    exact ⟨_, rfl⟩

/-- **The successes are delivered exactly when** every answer of the second stream is a success
with metadata. -/
theorem deliversSuccesses_iff (many : RecvStream CmdGetManyByNameResponseStream)
    (ext : RecvStream CmdGetManyByNameExtResponseStream) :
    DeliversSuccesses many ext ↔ ∀ resp ∈ ext.items, Complete resp := by
  constructor
  · intro h resp hresp
    have hclosed : (recvLoop GetObjectManyExt.turn ext.items ext.err).ending = .closed :=
      congrArg Goroutine.ending h.ext
    exact (turn_eq_ok_iff resp).mp (ok_of_closed hclosed resp hresp)
  · intro h
    refine ⟨recvLoop_of_ok ?_ many.err, recvLoop_of_ok ?_ ext.err⟩
    · intro resp _
      cases resp <;> rfl
    · intro resp hresp
      obtain ⟨hasSucceeded, m, mem, rfl⟩ := h resp hresp
      rfl

/-- One failure, and the object after it is never delivered. -/
theorem failure_panics :
    GetObjectManyExt ⟨[.msgOnFailure, .msgOnSuccess ⟨true, some { securityName := "a" }, []⟩],
      .eof⟩ = ⟨[], .panicked .nilDereference⟩ ∧
    ¬ DeliversSuccesses ⟨[], .eof⟩
      ⟨[.msgOnFailure, .msgOnSuccess ⟨true, some { securityName := "a" }, []⟩], .eof⟩ := by
  refine ⟨rfl, ?_⟩
  intro h
  have hending := congrArg Goroutine.ending h.ext
  cases hending

end AuroraSizing.Client

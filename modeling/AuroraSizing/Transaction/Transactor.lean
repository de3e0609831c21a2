import AuroraSizing.Foundation.System
import AuroraSizing.Transaction.Atomicity

/-!
# The Go client's transactor

`GrpcTransactor` buffers its operations, and `End` sends them on one stream between a
header and a trailer. `Rpc` is that call with both parties and what is in flight between
them: requests arrive in order, the half-close after the last of them, and the end of
the call reaches the client some time after the server has ended it. A `Send` from then
on returns `io.EOF`, and `RecvMsg` returns the response of a call that ended with one
and the status of any other.
-/

namespace AuroraSizing.Transaction

/-- `model.Metadata` -/
structure ModelMetadata where
  securityName : String := ""
  securityType : JInt := 0
  updateCount : JLong := 0
  dateCreated : JInt := 0
  timeUpdated : String := ""
  dbIdUpdated : JInt := 0
  lastTxnId : JLong := 0
  versionInfo : JInt := 0
deriving DecidableEq, Repr

def convertModelMetadataToGrpcMetadata (m : ModelMetadata) : Metadata where
  securityName := m.securityName
  securityType := m.securityType
  updateCount := m.updateCount
  dateCreated := m.dateCreated
  timeUpdate := m.timeUpdated
  dbIdUpdated := m.dbIdUpdated
  lastTxnId := m.lastTxnId
  versionInfo := m.versionInfo

structure GrpcTransactor where
  buffer : List CmdTransactionRequest := []

namespace GrpcTransactor

def append (g : GrpcTransactor) (req : CmdTransactionRequest) : GrpcTransactor :=
  { g with buffer := g.buffer ++ [req] }

def insert (g : GrpcTransactor) (metadata : ModelMetadata) (mem : Bytes) : GrpcTransactor :=
  g.append ⟨1, .insert
    { metadata := convertModelMetadataToGrpcMetadata metadata
      mem := mem }⟩

def rename (g : GrpcTransactor) (oldMetadata newMetadata : ModelMetadata) : GrpcTransactor :=
  g.append ⟨3, .rename
    { oldMetadata := convertModelMetadataToGrpcMetadata oldMetadata
      newMetadata := convertModelMetadataToGrpcMetadata newMetadata }⟩

def update (g : GrpcTransactor) (oldMetadata newMetadata : ModelMetadata) (mem : Bytes) :
    GrpcTransactor :=
  g.append ⟨2, .update
    { oldMetadata := convertModelMetadataToGrpcMetadata oldMetadata
      newMetadata := convertModelMetadataToGrpcMetadata newMetadata
      mem := mem }⟩

def delete (g : GrpcTransactor) (metadata : ModelMetadata) : GrpcTransactor :=
  g.append ⟨4, .delete { metadata := convertModelMetadataToGrpcMetadata metadata }⟩

/-- What `End` sends, in order. -/
def requests (g : GrpcTransactor) : List CmdTransactionRequest :=
  ⟨0, .header { transName := "abc", transType := 0 }⟩ :: g.buffer ++ [⟨5, .trailer⟩]

end GrpcTransactor

/-! ## The call -/

/-- What `End` returns in place of nil. -/
inductive GoError where
  /-- `io.EOF`, from a `Send` on a stream that has ended. -/
  | eof
  /-- The status of a call that ended without a response. -/
  | status
deriving DecidableEq, Repr

inductive EndPhase where
  | sending
  /-- In `CloseAndRecv`, after `CloseSend`. -/
  | receiving
  | returned (err : Option GoError)
deriving DecidableEq, Repr

structure Rpc where
  phase : EndPhase
  /-- The requests that no `Send` has taken. -/
  unsent : List CmdTransactionRequest
  toServer : List CmdTransactionRequest
  /-- The half-close is on its way to the server. -/
  halfClosing : Bool
  /-- Whether `transaction` returned an observer; it throws when there is no connection. -/
  listening : Bool
  server : Stream
  /-- The callbacks the observer has run. -/
  callbacks : List Event
  /-- The end of the call has reached the client. -/
  endSeen : Bool
deriving DecidableEq

inductive RpcEvent where
  | send
  | closeSend
  | deliver (o : Outcomes)
  | deliverHalfClose (o : Outcomes)
  | endArrives
  | recvMsg
deriving DecidableEq, Repr

namespace Rpc

def start (g : GrpcTransactor) (listening : Bool) (resultSet : Option JLong) : Rpc where
  phase := .sending
  unsent := g.requests
  toServer := []
  halfClosing := false
  listening := listening
  server := { Stream.start resultSet with callOpen := listening }
  callbacks := []
  endSeen := false

/-- The observer runs a callback. -/
def callback (jdk : Jdk) (w : Rpc) (e : Event) : Rpc :=
  { w with
    server := w.server.deliver jdk e
    callbacks := w.callbacks ++ [e] }

def step (jdk : Jdk) (w : Rpc) : RpcEvent → Option Rpc
  | .send =>
      match w.phase, w.unsent with
      | .sending, req :: rest =>
          if w.endSeen then some { w with phase := .returned (some .eof) }
          else some { w with unsent := rest, toServer := w.toServer ++ [req] }
      | _, _ => none
  | .closeSend =>
      match w.phase, w.unsent with
      | .sending, [] => some { w with phase := .receiving, halfClosing := true }
      | _, _ => none
  | .deliver o =>
      match w.listening, w.toServer with
      | true, req :: rest => some (callback jdk { w with toServer := rest } (.onNext req, o))
      | _, _ => none
  | .deliverHalfClose o =>
      match w.listening, w.toServer, w.halfClosing with
      | true, [], true => some (callback jdk { w with halfClosing := false } (.onCompleted, o))
      | _, _, _ => none
  | .endArrives =>
      if w.server.callOpen || w.endSeen then none else some { w with endSeen := true }
  | .recvMsg =>
      match w.phase, w.endSeen with
      | .receiving, true =>
          -- `End` looks at the error only, never at the response
          some { w with
            phase := .returned (if w.server.sent.isEmpty then some .status else none) }
      | _, _ => none

/-! ## What a step can do -/

inductive Moves (jdk : Jdk) (w : Rpc) : RpcEvent → Rpc → Prop
  | send {req : CmdTransactionRequest} {rest : List CmdTransactionRequest}
      (phase : w.phase = .sending) (unsent : w.unsent = req :: rest) (running : w.endSeen = false) :
      Moves jdk w .send { w with unsent := rest, toServer := w.toServer ++ [req] }
  | sendRefused {req : CmdTransactionRequest} {rest : List CmdTransactionRequest}
      (phase : w.phase = .sending) (unsent : w.unsent = req :: rest) (ended : w.endSeen = true) :
      Moves jdk w .send { w with phase := .returned (some .eof) }
  | closeSend (phase : w.phase = .sending) (unsent : w.unsent = []) :
      Moves jdk w .closeSend { w with phase := .receiving, halfClosing := true }
  | deliver {o : Outcomes} {req : CmdTransactionRequest} {rest : List CmdTransactionRequest}
      (listening : w.listening = true) (toServer : w.toServer = req :: rest) :
      Moves jdk w (.deliver o) (callback jdk { w with toServer := rest } (.onNext req, o))
  | deliverHalfClose {o : Outcomes} (listening : w.listening = true) (toServer : w.toServer = [])
      (halfClosing : w.halfClosing = true) :
      Moves jdk w (.deliverHalfClose o)
        (callback jdk { w with halfClosing := false } (.onCompleted, o))
  | endArrives (ended : w.server.callOpen = false) (unseen : w.endSeen = false) :
      Moves jdk w .endArrives { w with endSeen := true }
  | recvMsg (phase : w.phase = .receiving) (ended : w.endSeen = true) :
      Moves jdk w .recvMsg
        { w with phase := .returned (if w.server.sent.isEmpty then some .status else none) }

theorem moves_of_step {jdk : Jdk} {w w' : Rpc} {e : RpcEvent} (h : w.step jdk e = some w') :
    Moves jdk w e w' := by
  cases e with
  | send =>
      simp only [step] at h
      split at h
      · rename_i req rest hphase hunsent
        split at h
        · rename_i hended
          cases h
          exact .sendRefused hphase hunsent hended
        · rename_i hrunning
          cases h
          exact .send hphase hunsent (by simpa using hrunning)
      · cases h
  | closeSend =>
      simp only [step] at h
      split at h
      · rename_i hphase hunsent
        cases h
        exact .closeSend hphase hunsent
      · cases h
  | deliver o =>
      simp only [step] at h
      split at h
      · rename_i hlistening htoServer
        cases h
        exact .deliver hlistening htoServer
      · cases h
  | deliverHalfClose o =>
      simp only [step] at h
      split at h
      · rename_i hlistening htoServer hhalf
        cases h
        exact .deliverHalfClose hlistening htoServer hhalf
      · cases h
  | endArrives =>
      simp only [step] at h
      split at h
      · cases h
      · rename_i hends
        have hends : w.server.callOpen = false ∧ w.endSeen = false := by simpa using hends
        cases h
        exact .endArrives hends.1 hends.2
  | recvMsg =>
      simp only [step] at h
      split at h
      · rename_i hphase hended
        cases h
        exact .recvMsg hphase hended
      · cases h

end Rpc

end AuroraSizing.Transaction

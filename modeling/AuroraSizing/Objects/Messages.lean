import Mathlib.Data.List.Basic
import Mathlib.Data.Int.Notation

/-!
# The messages of the transaction service

`CmdTransactionRequest` carries the `trans_seq` number and one message of its
oneof. The two are independent on the wire: a getter of the oneof answers the
default message when another alternative is set, so every handler of the server
is total on every request. Fields that no handler reads (`msg_size`,
`msg_type`, `mem_size`, `ignore_err_flag`, the fields of the trailer) are left
out.
-/

namespace AuroraSizing

/-- Java `int`. -/
abbrev JInt := BitVec 32

/-- Java `long`. -/
abbrev JLong := BitVec 64

abbrev Bytes := List UInt8

/-- `java.sql.Timestamp`: nanoseconds since the epoch. -/
structure Timestamp where
  nanos : ℤ
deriving DecidableEq, Repr

/-- What the server takes from the Java runtime, the JDBC driver and its own
configuration. -/
structure Jdk where
  /-- `String.toLowerCase()`, under the default locale of the process. -/
  toLowerCase : String → String
  /-- `Timestamp.valueOf(String)`; `none` is its `IllegalArgumentException`. -/
  timestampValueOf : String → Option Timestamp
  /-- `ResultSet.getString` of a `timestamp` column. -/
  timestampText : Timestamp → String
  /-- Connections are lent by `SimpleDataSource2`, each behind a `ConnectionProxy`. -/
  proxied : Bool

/-- A runtime that answers as the real one does on ASCII names and on the
timestamps it lists, at UTC, with a pool that raises what the driver raises. -/
def Jdk.ascii : Jdk where
  toLowerCase s := String.ofList (s.toList.map Char.toLower)
  timestampValueOf s :=
    if s = "1970-01-01 00:00:00" then some ⟨0⟩
    else if s = "2021-01-29 00:00:00" then some ⟨1611878400000000000⟩
    else none
  timestampText t :=
    if t.nanos = 0 then "1970-01-01 00:00:00" else "2021-01-29 00:00:00"
  proxied := false

/-- `metadata.proto` -/
structure Metadata where
  securityName : String := ""
  securityType : JInt := 0
  updateCount : JLong := 0
  dateCreated : JInt := 0
  timeUpdate : String := ""
  dbIdUpdated : JInt := 0
  lastTxnId : JLong := 0
  versionInfo : JInt := 0
deriving DecidableEq, Repr

structure CmdTransHeader where
  transName : String := ""
  secType : JInt := 0
  transType : JInt := 0
  dbId : JInt := 0
  detailParts : JInt := 0
  sourceTransId : JInt := 0
  transFlags : JInt := 0
deriving DecidableEq, Repr

structure CmdInsert where
  metadata : Metadata := {}
  mem : Bytes := []
deriving DecidableEq, Repr

structure CmdUpdate where
  oldMetadata : Metadata := {}
  newMetadata : Metadata := {}
  mem : Bytes := []
deriving DecidableEq, Repr

structure CmdRename where
  oldMetadata : Metadata := {}
  newMetadata : Metadata := {}
deriving DecidableEq, Repr

structure CmdDelete where
  metadata : Metadata := {}
deriving DecidableEq, Repr

/-- The oneof `MessageRequest`. -/
inductive MessageRequest where
  | header (m : CmdTransHeader)
  | insert (m : CmdInsert)
  | update (m : CmdUpdate)
  | delete (m : CmdDelete)
  | rename (m : CmdRename)
  | trailer
  | notSet
deriving DecidableEq, Repr

/-- `getTransSeqValue()` answers the number on the wire, declared or not. -/
structure CmdTransactionRequest where
  transSeqValue : ℤ
  messageRequest : MessageRequest
deriving DecidableEq, Repr

namespace CmdTransactionRequest

def getHeader (r : CmdTransactionRequest) : CmdTransHeader :=
  match r.messageRequest with
  | .header m => m
  | _ => {}

def getInsert (r : CmdTransactionRequest) : CmdInsert :=
  match r.messageRequest with
  | .insert m => m
  | _ => {}

def getUpdate (r : CmdTransactionRequest) : CmdUpdate :=
  match r.messageRequest with
  | .update m => m
  | _ => {}

def getDelete (r : CmdTransactionRequest) : CmdDelete :=
  match r.messageRequest with
  | .delete m => m
  | _ => {}

def getRename (r : CmdTransactionRequest) : CmdRename :=
  match r.messageRequest with
  | .rename m => m
  | _ => {}

end CmdTransactionRequest

/-- The two answers the transaction service sends, each with its
`NotSecSyncMessage`. -/
inductive TransMsgResponse where
  | msgOnSuccess (ack : JInt) (txnId : JInt)
  | msgOnFailure (ack : JInt) (txnId : JInt)
deriving DecidableEq, Repr

end AuroraSizing

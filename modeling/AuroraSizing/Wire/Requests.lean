import AuroraSizing.Wire.Connection
import AuroraSizing.Wire.GetByName

/-!
# The client's requests

Each `encode` allocates its bytes and copies the fields to hand-advanced offsets; what it
leaves uncopied is whatever the heap held. `AttachRequest` and `GetByNameRequest` come out
of the server's decoder as they went in. `NameLookupRequest::encode` copies its type to
`data` where the others copy to `data + index`, over the length.
-/

namespace AuroraSizing.Wire

open Foundation.Bytes

/-! ## MsgProcessor -/

/-- `MsgProcessor::decode`: the message it selects and the request that reads. -/
def MsgProcessor.decode (data : Bytes) : Option (MessageType × Request) := do
  let type ← MessageType.ofCode (ofLe (data.take 2))
  let request ← type.decode (data.drop 2)
  return (type, request)

/-- A complete message goes through `MsgProcessor::decode`. -/
theorem Connection.dispatch_eq (written : ℕ → Bytes) (c : Connection) :
    dispatch written c =
      match MsgProcessor.decode (c.buf.drop c.headerSize) with
      | none => { c with index := 0, closed := true }
      | some (type, request) =>
          { c with
            index := 0
            headerSize := if type = .srvMsgAttach then 4 else c.headerSize
            buf := overwrite c.buf 0 (written c.decoded.length)
            decoded := c.decoded ++ [⟨c.buf.take c.msgSize, request⟩] } := by
  unfold dispatch MsgProcessor.decode
  cases htype : MessageType.ofCode (ofLe ((c.buf.drop c.headerSize).take 2)) with
  | none => simp only [htype, Option.bind_eq_bind, Option.bind_none]
  | some type =>
      cases hrequest : type.decode ((c.buf.drop c.headerSize).drop 2) with
      | none => simp only [htype, hrequest, Option.bind_eq_bind, Option.bind_some, Option.bind_none]
      | some request =>
          simp only [htype, hrequest, Option.bind_eq_bind, Option.bind_some]
          rfl

theorem MessageType.code_lt (t : MessageType) : t.code < 256 ^ 2 := by
  cases t <;> decide

/-- A type, and behind it a payload its message can decode. -/
theorem MsgProcessor.decode_append {t : MessageType} {payload : Bytes} {r : Request}
    (h : t.decode payload = some r) (more : Bytes) :
    MsgProcessor.decode (le 2 t.code ++ (payload ++ more)) = some (t, r) := by
  have htake : (le 2 t.code ++ (payload ++ more)).take 2 = le 2 t.code :=
    List.take_left' (length_le 2 _)
  have hdrop : (le 2 t.code ++ (payload ++ more)).drop 2 = payload ++ more :=
    List.drop_left' (length_le 2 _)
  have hcode : ofLe (le 2 t.code) = t.code := by
    rw [ofLe_le, Nat.mod_eq_of_lt t.code_lt]
  simp only [MsgProcessor.decode, htake, hdrop, hcode, MessageType.ofCode_code,
    MessageType.decode_extend h more, Option.bind_eq_bind, Option.bind_some]
  rfl

/-! ## Attach -/

/-- A C++ string the server's window can delimit. -/
structure CName (window : ℕ) where
  bytes : Bytes
  lt : bytes.length < window
  nul : 0 ∉ bytes

namespace CName

variable {window : ℕ}

/-- `c_str()`, of which `size() + 1` bytes are copied. -/
def cStr (s : CName window) : Bytes := s.bytes ++ [0]

theorem length_cStr (s : CName window) : s.cStr.length = s.bytes.length + 1 := by
  simp [cStr]

theorem cString_cStr (s : CName window) (rest : Bytes) :
    cString window (s.cStr ++ rest) = some (s.bytes, rest) := by
  rw [cStr, List.append_assoc]
  exact cString_append s.lt s.nul rest

end CName

/-- `client/messages/attach.h` -/
structure AttachRequest where
  userName : CName USER_NAME_SIZE
  appName : CName APP_NAME_SIZE
  version : BitVec 16
  revision : BitVec 16

namespace AttachRequest

/-- The bytes of its fields, of `msgType` with its four and of `size`. -/
def size (r : AttachRequest) : ℕ :=
  r.userName.bytes.length + 1 + r.appName.bytes.length + 1 + 2 + 2 + 4 + 2

/-- `heap` is what `new char[size + sizeof(size)]` finds. -/
def encode (heap : Memory) (r : AttachRequest) : Bytes :=
  let data := heap.read 0 (r.size + 2)
  let data := overwrite data 0 (le 2 r.size)
  let index := 2
  let data := overwrite data index (le 2 MessageType.srvMsgAttach.code)
  let index := index + 2
  let data := overwrite data index r.userName.cStr
  let index := index + (r.userName.bytes.length + 1)
  let data := overwrite data index r.appName.cStr
  let index := index + (r.appName.bytes.length + 1)
  let data := overwrite data index (le 2 r.version.toNat)
  let index := index + 2
  overwrite data index (le 2 r.revision.toNat)

/-- What `SrvAttach::decode` is to read. -/
def payload (r : AttachRequest) : Bytes :=
  r.userName.cStr ++ (r.appName.cStr ++ (le 2 r.version.toNat ++ le 2 r.revision.toNat))

def request (r : AttachRequest) : Request :=
  .attach r.userName.bytes r.appName.bytes r.version r.revision

theorem encode_starts (heap : Memory) (r : AttachRequest) :
    le 2 r.size ++ (le 2 MessageType.srvMsgAttach.code ++ r.payload) <+: r.encode heap := by
  have hsize := prefix_overwrite (List.nil_prefix (l := heap.read 0 (r.size + 2)))
    List.length_nil (le 2 r.size)
  have htype := prefix_overwrite hsize (show _ = 2 by simp) (le 2 MessageType.srvMsgAttach.code)
  have huser := prefix_overwrite htype (show _ = 2 + 2 by simp) r.userName.cStr
  have happ := prefix_overwrite huser (show _ = 2 + 2 + (r.userName.bytes.length + 1) by
    simp [CName.length_cStr]; omega) r.appName.cStr
  have hversion := prefix_overwrite happ
    (show _ = 2 + 2 + (r.userName.bytes.length + 1) + (r.appName.bytes.length + 1) by
      simp [CName.length_cStr]; omega) (le 2 r.version.toNat)
  have hrevision := prefix_overwrite hversion
    (show _ = 2 + 2 + (r.userName.bytes.length + 1) + (r.appName.bytes.length + 1) + 2 by
      simp [CName.length_cStr]; omega) (le 2 r.revision.toNat)
  simp only [List.nil_append, List.append_assoc] at hrevision
  exact hrevision

theorem decode_payload (r : AttachRequest) : SrvAttach.decode r.payload = some r.request := by
  simp only [SrvAttach.decode, payload, CName.cString_cStr, readN_append (length_le 2 _),
    readN_all (length_le 2 _), leBits_le (show 16 = 8 * 2 by rfl), BitVec.setWidth_eq,
    Option.bind_eq_bind, Option.bind_some]
  rfl

end AttachRequest

/-! ## Get by name -/

/-- `client/messages/getbyname.h` -/
structure GetByNameRequest where
  securityName : CName SEC_NAME_SIZE

namespace GetByNameRequest

def size (r : GetByNameRequest) : ℕ := 4 + 4 + r.securityName.bytes.length + 1

def encode (heap : Memory) (r : GetByNameRequest) : Bytes :=
  let data := heap.read 0 r.size
  let data := overwrite data 0 (le 4 r.size)
  let index := 4
  let data := overwrite data index (le 2 MessageType.srvMsgGetByName.code)
  let index := index + 2
  overwrite data index r.securityName.cStr

def request (r : GetByNameRequest) : Request := .getByName r.securityName.bytes

theorem encode_starts (heap : Memory) (r : GetByNameRequest) :
    le 4 r.size ++ (le 2 MessageType.srvMsgGetByName.code ++ r.securityName.cStr) <+:
      r.encode heap := by
  have hsize := prefix_overwrite (List.nil_prefix (l := heap.read 0 r.size)) List.length_nil
    (le 4 r.size)
  have htype := prefix_overwrite hsize (show _ = 4 by simp)
    (le 2 MessageType.srvMsgGetByName.code)
  have hname := prefix_overwrite htype (show _ = 4 + 2 by simp) r.securityName.cStr
  simp only [List.nil_append, List.append_assoc] at hname
  exact hname

theorem decode_cStr (r : GetByNameRequest) :
    SrvMsgGetByName.decode r.securityName.cStr = some r.request := by
  have hname := r.securityName.cString_cStr []
  rw [List.append_nil] at hname
  simp only [SrvMsgGetByName.decode, hname, Option.bind_eq_bind, Option.bind_some]
  rfl

end GetByNameRequest

/-! ## The two round trips -/

/-- Behind a header of `headerSize` bytes, and whatever follows it in the buffer, the server
decodes this. -/
def DecodesTo (headerSize : ℕ) (encoded : Bytes) (type : MessageType) (request : Request) :
    Prop :=
  ∀ more, MsgProcessor.decode ((encoded ++ more).drop headerSize) = some (type, request)

theorem DecodesTo.of_starts {headerSize size : ℕ} {encoded payload : Bytes} {t : MessageType}
    {r : Request} (h : le headerSize size ++ (le 2 t.code ++ payload) <+: encoded)
    (hdecode : t.decode payload = some r) : DecodesTo headerSize encoded t r := by
  intro more
  rcases h with ⟨rest, rfl⟩
  have hdrop : ((le headerSize size ++ (le 2 t.code ++ payload) ++ rest) ++ more).drop headerSize =
      le 2 t.code ++ (payload ++ (rest ++ more)) := by
    simp only [List.append_assoc]
    exact List.drop_left' (length_le headerSize _)
  rw [hdrop]
  exact MsgProcessor.decode_append hdecode _

/-- **Attach and get-by-name requests decode to what was encoded**, with any heap behind
the copies and any bytes behind the message. -/
theorem requests_decode (heap : Memory) (attach : AttachRequest) (getByName : GetByNameRequest) :
    DecodesTo 2 (attach.encode heap) .srvMsgAttach
        (.attach attach.userName.bytes attach.appName.bytes attach.version attach.revision) ∧
      DecodesTo 4 (getByName.encode heap) .srvMsgGetByName
        (.getByName getByName.securityName.bytes) :=
  ⟨.of_starts (attach.encode_starts heap) attach.decode_payload,
    .of_starts (getByName.encode_starts heap) getByName.decode_cStr⟩

/-! ## Name lookup -/

inductive LookupType where
  | sdbGetFirst
  | sdbGetLast
  | sdbGetEqual
  | sdbGetLess
  | sdbGetLe
  | sdbGetGreater
  | sdbGetGe
  | sdbGetNext
  | sdbGetPrev
deriving DecidableEq, Repr

def LookupType.code : LookupType → BitVec 16
  | .sdbGetFirst => 1
  | .sdbGetLast => 2
  | .sdbGetEqual => 3
  | .sdbGetLess => 4
  | .sdbGetLe => 5
  | .sdbGetGreater => 6
  | .sdbGetGe => 7
  | .sdbGetNext => 8
  | .sdbGetPrev => 9

/-- `client/messages/lookup.h` -/
structure NameLookupRequest where
  type : LookupType
  count : BitVec 16
  namePrefix : CName SEC_NAME_SIZE

namespace NameLookupRequest

def size (r : NameLookupRequest) : ℕ := 4 + 4 + 2 + 2 + r.namePrefix.bytes.length + 1

def encode (heap : Memory) (r : NameLookupRequest) : Bytes :=
  let data := heap.read 0 r.size
  let data := overwrite data 0 (le 4 r.size)
  let index := 4
  let data := overwrite data index (le 2 MessageType.srvMsgNameLookup.code)
  let index := index + 2
  -- memcpy(data, &type, sizeof(short)), without the index
  let data := overwrite data 0 (le 2 r.type.code.toNat)
  let index := index + 2
  let data := overwrite data index (le 2 r.count.toNat)
  let index := index + 2
  overwrite data index r.namePrefix.cStr

/-- What `new char[size]` had where the type belongs. -/
def stale (heap : Memory) : Bytes := heap.read 6 2

theorem read_append (heap : Memory) (addr m n : ℕ) :
    heap.read addr (m + n) = heap.read addr m ++ heap.read (addr + m) n := by
  unfold Memory.read
  rw [List.range_add, List.map_append, List.map_map]
  simp [Function.comp_def, Nat.add_assoc]

/-- What `encode` leaves of the request: the low half of the length is gone, and the type's
own place was never written. -/
theorem encode_eq (heap : Memory) (r : NameLookupRequest) :
    r.encode heap = le 2 r.type.code.toNat ++ ((le 4 r.size).drop 2 ++
      (le 2 MessageType.srvMsgNameLookup.code ++ (stale heap ++
        (le 2 r.count.toNat ++ (r.namePrefix.cStr ++
          heap.read (11 + r.namePrefix.bytes.length) 2))))) := by
  -- the heap, cut where the copies go
  have hheap : heap.read 0 r.size =
      heap.read 0 4 ++ (heap.read 4 2 ++ (stale heap ++ (heap.read 8 2 ++
        (heap.read 10 (r.namePrefix.bytes.length + 1) ++
          heap.read (11 + r.namePrefix.bytes.length) 2)))) := by
    have hsize : r.size = 4 + (2 + (2 + (2 + (r.namePrefix.bytes.length + 1 + 2)))) := by
      rw [size]
      omega
    have htail : 10 + (r.namePrefix.bytes.length + 1) = 11 + r.namePrefix.bytes.length := by omega
    rw [hsize, stale, read_append, read_append, read_append, read_append, read_append, htail]
  have hsize : le 4 r.size = (le 4 r.size).take 2 ++ (le 4 r.size).drop 2 :=
    (List.take_append_drop 2 _).symm
  have hlow : ∀ rest, overwrite (le 4 r.size ++ rest) 0 (le 2 r.type.code.toNat) =
      le 2 r.type.code.toNat ++ ((le 4 r.size).drop 2 ++ rest) := by
    intro rest
    nth_rewrite 1 [hsize]
    rw [List.append_assoc, overwrite_front (by simp)]
  unfold encode
  rw [hheap]
  simp (disch := simp [CName.length_cStr]) only [stale, overwrite_front, overwrite_behind, hlow,
    length_le, List.length_drop, Memory.length_read, Nat.reduceSub, Nat.reduceAdd]

theorem length_encode (heap : Memory) (r : NameLookupRequest) :
    (r.encode heap).length = r.size := by
  rw [encode_eq, size]
  simp only [List.length_append, List.length_drop, length_le, CName.length_cStr, stale,
    Memory.length_read]
  omega

theorem size_lt (r : NameLookupRequest) : 13 ≤ r.size ∧ r.size < 2 ^ 16 := by
  have hlt : r.namePrefix.bytes.length < 32 := r.namePrefix.lt
  rw [size]
  omega

/-- The request as `SRVMsgNameLookup::decode` reads it: the type is what the heap had. -/
theorem decode_encode (heap : Memory) (r : NameLookupRequest) (more : Bytes) :
    MsgProcessor.decode ((r.encode heap ++ more).drop 4) =
      some (.srvMsgNameLookup,
        .nameLookup (leBits 16 (stale heap)) r.count r.namePrefix.bytes) := by
  have hdecode : MessageType.srvMsgNameLookup.decode (stale heap ++ (le 2 r.count.toNat ++
      (r.namePrefix.cStr ++ heap.read (11 + r.namePrefix.bytes.length) 2))) =
        some (.nameLookup (leBits 16 (stale heap)) r.count r.namePrefix.bytes) := by
    simp only [MessageType.decode, SRVMsgNameLookup.decode, CName.cString_cStr,
      readN_append (length_le 2 _), readN_append (Memory.length_read heap 6 2), stale,
      leBits_le (show 16 = 8 * 2 by rfl), BitVec.setWidth_eq, Option.bind_eq_bind,
      Option.bind_some]
    rfl
  have hdrop : (r.encode heap ++ more).drop 4 =
      le 2 MessageType.srvMsgNameLookup.code ++ ((stale heap ++ (le 2 r.count.toNat ++
        (r.namePrefix.cStr ++ heap.read (11 + r.namePrefix.bytes.length) 2))) ++ more) := by
    rw [encode_eq]
    simp only [List.append_assoc]
    rw [← List.append_assoc (le 2 r.type.code.toNat)]
    exact List.drop_left' (by simp)
  rw [hdrop]
  exact MsgProcessor.decode_append hdecode more

end NameLookupRequest

/-- On this connection the request arrives as it was meant. -/
structure LookupRoundTrips (c : Connection) (heap : Memory) (r : NameLookupRequest)
    (more : Bytes) : Prop where
  size : (c.received (r.encode heap ++ more)).msgSize = r.size
  decoded : MsgProcessor.decode ((c.received (r.encode heap ++ more)).buf.drop c.headerSize) =
    some (.srvMsgNameLookup, .nameLookup r.type.code r.count r.namePrefix.bytes)

theorem received_buf {c : Connection} (hindex : c.index = 0) (chunk : Bytes) :
    (c.received chunk).buf = chunk ++ c.buf.drop chunk.length := by
  simp only [Connection.received, hindex, overwrite, List.take_zero, List.nil_append, Nat.zero_add]

/-- The low two bytes of the length the server reads are those of the type. -/
theorem received_msgSize {c : Connection} (hindex : c.index = 0)
    (hheader : c.headerSize = 2 ∨ c.headerSize = 4) (heap : Memory) (r : NameLookupRequest)
    (more : Bytes) :
    (c.received (r.encode heap ++ more)).msgSize % 2 ^ 16 = r.type.code.toNat := by
  have hlength : (r.encode heap ++ more).length = r.size + more.length := by
    rw [List.length_append, r.length_encode]
  have hthere : c.headerSize ≤ c.index + (r.encode heap ++ more).length := by
    have hsize := r.size_lt
    omega
  obtain ⟨rest, hrest⟩ : ∃ rest, r.encode heap ++ more = le 2 r.type.code.toNat ++ rest := by
    rw [NameLookupRequest.encode_eq, List.append_assoc]
    exact ⟨_, rfl⟩
  obtain ⟨tail, htail⟩ : ∃ tail, (overwrite c.buf c.index (r.encode heap ++ more)).take
      c.headerSize = le 2 r.type.code.toNat ++ tail := by
    rw [show overwrite c.buf c.index _ = _ from received_buf hindex _, hrest, List.append_assoc,
      List.take_append, List.take_of_length_le (by rw [length_le]; omega)]
    exact ⟨_, rfl⟩
  simp only [Connection.received, if_pos hthere, htail, List.append_assoc, ofLe_append, ofLe_le,
    length_le]
  have hcode := r.type.code.isLt
  omega

theorem LookupType.code_le (t : LookupType) : t.code.toNat ≤ 9 := by
  cases t <;> decide

/-- **No name lookup request round trips.** The length the server reads is the type, which
is smaller than any request, and the type it decodes is what the heap held. -/
theorem nameLookup_never_round_trips {c : Connection} (hindex : c.index = 0)
    (hheader : c.headerSize = 2 ∨ c.headerSize = 4) (heap : Memory) (r : NameLookupRequest)
    (more : Bytes) : ¬ LookupRoundTrips c heap r more := by
  intro h
  have hlow := received_msgSize hindex hheader heap r more
  have hsize := r.size_lt
  have hcode := r.type.code_le
  rw [h.size, Nat.mod_eq_of_lt hsize.2] at hlow
  omega

/-- A connection past its attach message. -/
def Connection.attached : Connection := { Connection.create with headerSize := 4, msgSize := 22 }

/-- `Client::lookup` of the prefix A. -/
def lookupA : NameLookupRequest where
  type := .sdbGetGe
  count := 5
  namePrefix := ⟨[65], sampleRow.name_lt, sampleRow.name_nul⟩

theorem lookupA_never_round_trips :
    (Connection.attached.index = 0 ∧
        (Connection.attached.headerSize = 2 ∨ Connection.attached.headerSize = 4)) ∧
      ¬ LookupRoundTrips Connection.attached (fun _ => 0) lookupA [] :=
  ⟨⟨rfl, .inr rfl⟩, nameLookup_never_round_trips rfl (.inr rfl) (fun _ => 0) lookupA []⟩

/-- Out of a zeroed heap: the 14 bytes of the request are read as 7, and the type as 0. -/
theorem lookup_type_over_length :
    lookupA.size = 14 ∧
      (Connection.attached.received (lookupA.encode fun _ => 0)).msgSize = 7 ∧
      MsgProcessor.decode ((lookupA.encode fun _ => 0).drop 4) =
        some (.srvMsgNameLookup, .nameLookup 0 5 [65]) ∧
      ¬ LookupRoundTrips Connection.attached (fun _ => 0) lookupA [] := by
  have hlength : (Connection.attached.received (lookupA.encode fun _ => 0)).msgSize = 7 := by
    decide +kernel
  refine ⟨rfl, hlength, by decide, ?_⟩
  intro h
  have hsize := h.size
  rw [List.append_nil, hlength] at hsize
  revert hsize
  decide

end AuroraSizing.Wire

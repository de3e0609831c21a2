import AuroraSizing.Wire.Requests
import Mathlib.Algebra.Order.BigOperators.Group.List

/-!
# The server's responses

Every response starts with its length, in two bytes for an attach and in four for the
others. The client reads that many bytes and decodes what follows the length. The types of
the client differ from the server's in what they keep of a field, not in where they look
for it.
-/

namespace AuroraSizing.Wire

open Foundation.Bytes

/-! ## Attach -/

structure AttachResponse where
  versionRevision : BitVec 16
  serverFeatures : BitVec 32
deriving DecidableEq, Repr

def AttachResponse.size : ℕ := 2 + 2 + 4

/-- The response of `SrvAttach::process`, with its server features. -/
def SrvAttach.response : AttachResponse :=
  ⟨269, 1 ||| 0x00000008 ||| 0x00008000 ||| 0x00200000 ||| 0x00010000⟩

def SrvAttach.encode (response : AttachResponse) : Bytes :=
  le 2 AttachResponse.size ++
    (le 2 response.versionRevision.toNat ++ le 4 response.serverFeatures.toNat)

/-- `client/messages/attach.h` -/
def AttachResponse.decode (data : Bytes) : Option (AttachResponse × Bytes) := do
  let (versionRevision, data) ← readN 2 data
  let (serverFeatures, data) ← readN 4 data
  return (⟨leBits 16 versionRevision, leBits 32 serverFeatures⟩, data)

/-! ## Name lookup -/

structure NameLookupResponse where
  count : BitVec 16
  securityNames : List Bytes
deriving DecidableEq, Repr

/-- The constructor call in `SRVMsgNameLookup::process`; `count` is a `short`. -/
def NameLookupResponse.of (names : List Bytes) : NameLookupResponse :=
  ⟨BitVec.ofNat 16 names.length, names⟩

def NameLookupResponse.size (response : NameLookupResponse) : ℕ :=
  4 + 2 + (response.securityNames.map fun security => security.length + 1).sum

def SRVMsgNameLookup.encode (response : NameLookupResponse) : Bytes :=
  le 4 response.size ++
    (le 2 response.count.toNat ++ (response.securityNames.map (· ++ [0])).flatten)

/-- `client/messages/lookup.h`; a negative count reads no name. -/
def NameLookupResponse.decode (data : Bytes) : Option (NameLookupResponse × Bytes) := do
  let (count, data) ← readN 2 data
  let count := leBits 16 count
  let (securityNames, data) ← cStrings SEC_NAME_SIZE count.toInt.toNat data
  return (⟨count, securityNames⟩, data)

theorem SRVMsgNameLookup.length_encode (response : NameLookupResponse) :
    (SRVMsgNameLookup.encode response).length = response.size := by
  rw [SRVMsgNameLookup.encode, List.length_append, List.length_append, length_le, length_le,
    length_cStrings]
  exact (Nat.add_assoc 4 2 _).symm

/-! ## Get by name -/

/-- `GetByNameResponse` of `client/messages/getbyname.h`. -/
structure ClientGetByNameResponse where
  status : BitVec 16
  errorType : BitVec 16
  sec : ClientSecurity
deriving DecidableEq, Repr

/-- All that `GetByNameResponse::decode` writes; what it does not is as in `fresh`. -/
def ClientGetByNameResponse.decode (fresh : ClientGetByNameResponse) (data : Bytes) :
    Option (ClientGetByNameResponse × Bytes) := do
  let (status, data) ← readN 2 data
  if leBits 16 status = 0 then
    let (errorType, data) ← readN 2 data
    return (⟨leBits 16 status, leBits 16 errorType, fresh.sec⟩, data)
  else
    let (sec, data) ← ClientSecurity.decode fresh.sec data
    return (⟨leBits 16 status, fresh.errorType, sec⟩, data)

/-- `Client::getSecurity` keeps the `Security` of what is decoded. -/
theorem ClientGetByNameResponse.decode_sec {fresh response : ClientGetByNameResponse}
    {data rest : Bytes} (h : ClientGetByNameResponse.decode fresh data = some (response, rest)) :
    GetByNameResponse.decode fresh.sec data = some response.sec := by
  unfold ClientGetByNameResponse.decode at h
  obtain ⟨⟨status, data⟩, hstatus, h⟩ := Option.bind_eq_some_iff.mp h
  refine Option.bind_eq_some_iff.mpr ⟨_, hstatus, ?_⟩
  by_cases herror : leBits 16 status = 0
  · simp only [if_pos herror] at h ⊢
    obtain ⟨errorType, -, h⟩ := Option.bind_eq_some_iff.mp h
    cases h
    rfl
  · simp only [if_neg herror] at h ⊢
    obtain ⟨⟨sec, data⟩, hsec, h⟩ := Option.bind_eq_some_iff.mp h
    cases h
    exact Option.bind_eq_some_iff.mpr ⟨_, hsec, rfl⟩

/-! ## What reaches the client -/

/-- The length in the header is the number of bytes written, and the client's decoder takes
exactly the bytes behind the header and comes to a response as described. -/
def Delivers {ρ : Type} (headerSize : ℕ) (encoded : Bytes) (decode : Bytes → Option (ρ × Bytes))
    (described : ρ → Prop) : Prop :=
  ofLe (encoded.take headerSize) = encoded.length ∧
    ∃ response, decode (encoded.drop headerSize) = some (response, []) ∧ described response

theorem Delivers.of_header {ρ : Type} {headerSize size : ℕ} {body : Bytes}
    {decode : Bytes → Option (ρ × Bytes)} {described : ρ → Prop} (response : ρ)
    (hsize : size = headerSize + body.length) (hlt : size < 256 ^ headerSize)
    (hdecode : decode body = some (response, [])) (hdescribed : described response) :
    Delivers headerSize (le headerSize size ++ body) decode described := by
  refine ⟨?_, response, ?_, hdescribed⟩
  · rw [List.take_left' (length_le headerSize size), ofLe_le, Nat.mod_eq_of_lt hlt,
      List.length_append, length_le, hsize]
  · rw [List.drop_left' (length_le headerSize size)]
    exact hdecode

theorem attach_delivered (response : AttachResponse) :
    Delivers 2 (SrvAttach.encode response) AttachResponse.decode (· = response) := by
  refine Delivers.of_header response rfl (by decide) ?_ rfl
  simp only [AttachResponse.decode, readN_append (length_le 2 _), readN_all (length_le 4 _),
    leBits_le (show 16 = 8 * 2 by rfl), leBits_le (show 32 = 8 * 4 by rfl), BitVec.setWidth_eq,
    Option.bind_eq_bind, Option.bind_some]
  rfl

/-- Names the client's window can delimit, and no more of them than a `short` counts. -/
structure NameList where
  names : List (CName SEC_NAME_SIZE)
  length_le : names.length ≤ 32767

def NameList.bytes (l : NameList) : List Bytes := l.names.map CName.bytes

theorem NameList.length_bytes (l : NameList) : l.bytes.length = l.names.length :=
  List.length_map _

theorem NameList.mem_bytes (l : NameList) : ∀ s ∈ l.bytes, s.length < SEC_NAME_SIZE ∧ 0 ∉ s := by
  intro s hs
  obtain ⟨name, -, rfl⟩ := List.mem_map.mp hs
  exact ⟨name.lt, name.nul⟩

theorem NameList.size_lt (l : NameList) : (NameLookupResponse.of l.bytes).size < 256 ^ 4 := by
  have hle : ∀ n ∈ l.bytes.map fun security => security.length + 1, n ≤ 32 := by
    intro n hn
    obtain ⟨s, hs, rfl⟩ := List.mem_map.mp hn
    exact (l.mem_bytes s hs).1
  have hsum := List.sum_le_card_nsmul _ 32 hle
  rw [List.length_map, nsmul_eq_mul, Nat.cast_id, l.length_bytes] at hsum
  have hcount := l.length_le
  show 4 + 2 + (l.bytes.map fun security => security.length + 1).sum < 256 ^ 4
  omega

theorem NameList.count_eq (l : NameList) : (BitVec.ofNat 16 l.bytes.length).toInt =
    l.names.length := by
  have hcount := l.length_le
  rw [l.length_bytes]
  exact toInt_ofNat_of_lt (by omega)

theorem nameLookup_delivered (l : NameList) :
    Delivers 4 (SRVMsgNameLookup.encode (.of l.bytes)) NameLookupResponse.decode
      fun response => response.count.toInt = l.names.length ∧
        response.securityNames = l.bytes := by
  have hlength := SRVMsgNameLookup.length_encode (.of l.bytes)
  rw [SRVMsgNameLookup.encode, List.length_append, length_le] at hlength
  have hnat : (BitVec.ofNat 16 l.bytes.length).toInt.toNat = l.bytes.length := by
    rw [l.count_eq, l.length_bytes, Int.toNat_natCast]
  have hnames := cStrings_append l.mem_bytes []
  rw [List.append_nil] at hnames
  refine Delivers.of_header (.of l.bytes) hlength.symm l.size_lt ?_ ⟨l.count_eq, rfl⟩
  simp only [NameLookupResponse.decode, NameLookupResponse.of, readN_append (length_le 2 _),
    leBits_le (show 16 = 8 * 2 by rfl), BitVec.setWidth_eq, hnat, hnames, Option.bind_eq_bind,
    Option.bind_some]
  rfl

/-- A `Security` whose name the client's window can delimit, in a response whose length is
an `int`. -/
structure SentSecurity where
  sec : Security
  name_lt : sec.name.length < SEC_NAME_SIZE
  name_nul : 0 ∉ sec.name
  size_lt : 31 + sec.name.length + sec.blobSize.toNat < 2 ^ 31

/-- The client's `Security` has the fields of the server's, its type in the low 16 bits, and
the bytes behind the server's blob pointer. -/
structure Recovers (memory : Memory) (sec : Security) (sec' : ClientSecurity) : Prop where
  name : sec'.name = sec.name
  type : sec'.type.setWidth 16 = sec.type.setWidth 16
  lastTransactionId : sec'.lastTransactionId = sec.lastTransactionId
  timeUpdated : sec'.timeUpdated = sec.timeUpdated
  updateCount : sec'.updateCount = sec.updateCount
  dateCreated : sec'.dateCreated = sec.dateCreated
  dbIDUpdated : sec'.dbIDUpdated = sec.dbIDUpdated
  versionInfo : sec'.versionInfo = sec.versionInfo
  blobSize : sec'.blobSize = sec.blobSize
  blob : sec'.blob = memory.read sec.blob sec.blobSize.toNat

theorem notFound_delivered (memory : Memory) (fresh : ClientGetByNameResponse)
    (errorType : BitVec 16) :
    Delivers 4 (SrvMsgGetByName.encode memory ⟨4 + 2 + 2, 0, errorType, none⟩)
      (ClientGetByNameResponse.decode fresh)
      fun response => response.status = 0 ∧ response.errorType = errorType := by
  refine Delivers.of_header ⟨0, errorType, fresh.sec⟩ (by simp) (by norm_num) ?_ ⟨rfl, rfl⟩
  simp only [ClientGetByNameResponse.decode, readN_append (length_le 2 _),
    readN_all (length_le 2 _), leBits_le (show 16 = 8 * 2 by rfl), BitVec.setWidth_eq,
    Option.bind_eq_bind, Option.bind_some]
  rfl

theorem setWidth_type (v old : BitVec 32) :
    (leBits 32 (le 2 v.toNat ++ (le 4 old.toNat).drop 2)).setWidth 16 = v.setWidth 16 := by
  have hv := v.isLt
  have hold := old.isLt
  apply BitVec.eq_of_toNat_eq
  rw [leBits, BitVec.toNat_setWidth, BitVec.toNat_setWidth, BitVec.toNat_ofNat, ofLe_append,
    drop_le, ofLe_le, ofLe_le, length_le]
  omega

theorem security_delivered (memory : Memory) (fresh : ClientGetByNameResponse)
    (s : SentSecurity) :
    Delivers 4 (SrvMsgGetByName.encode memory (.of (some s.sec)))
      (ClientGetByNameResponse.decode fresh)
      fun response => response.status = 1 ∧ Recovers memory s.sec response.sec := by
  have hlt := s.size_lt
  have hsize : GetByNameResponse.size (.of (some s.sec)) = 31 + s.sec.name.length := by
    show 4 + 2 + (s.sec.name.length + RESPONSE_FIELD_SIZE) = _
    rw [RESPONSE_FIELD_SIZE]
    omega
  rw [encode_security, hsize]
  refine Delivers.of_header ⟨1, fresh.errorType, s.sec.toClient memory fresh.sec⟩ ?_ ?_ ?_
    ⟨rfl, rfl, setWidth_type _ _, rfl, rfl, rfl, rfl, rfl, rfl, rfl, rfl⟩
  · rw [List.length_append, length_le, length_securityBody]
    omega
  · omega
  · have hstatus : leBits 16 (le 2 (1 : BitVec 16).toNat) = 1 := by decide
    have hsuccess : ¬ (1 : BitVec 16) = 0 := by decide
    simp only [ClientGetByNameResponse.decode, readN_append (length_le 2 _), hstatus,
      if_neg hsuccess, decode_securityBody memory _ s.name_lt s.name_nul, Option.bind_eq_bind,
      Option.bind_some]
    rfl

/-- **Every response reaches the client as it was encoded**, byte for byte. -/
theorem responses_delivered :
    (∀ response : AttachResponse,
      Delivers 2 (SrvAttach.encode response) AttachResponse.decode (· = response)) ∧
    (∀ l : NameList,
      Delivers 4 (SRVMsgNameLookup.encode (.of l.bytes)) NameLookupResponse.decode
        fun response => response.count.toInt = l.names.length ∧
          response.securityNames = l.bytes) ∧
    ∀ (memory : Memory) (fresh : ClientGetByNameResponse),
      (∀ errorType, Delivers 4 (SrvMsgGetByName.encode memory ⟨4 + 2 + 2, 0, errorType, none⟩)
        (ClientGetByNameResponse.decode fresh)
        fun response => response.status = 0 ∧ response.errorType = errorType) ∧
      ∀ s : SentSecurity, Delivers 4 (SrvMsgGetByName.encode memory (.of (some s.sec)))
        (ClientGetByNameResponse.decode fresh)
        fun response => response.status = 1 ∧ Recovers memory s.sec response.sec :=
  ⟨attach_delivered, nameLookup_delivered, fun memory fresh =>
    ⟨notFound_delivered memory fresh, security_delivered memory fresh⟩⟩

end AuroraSizing.Wire

import AuroraSizing.Foundation.Copies
import AuroraSizing.Wire.Requests

/-!
# What the client allocates, fills and writes

A request computes its length in the constructor, `encode` allocates from that length and
copies the fields, and `Client` writes `size + sizeof(size_t)` bytes of the array. The three
are computed apart: `msgType` counts with its four bytes and is copied with two, a lookup's
type is copied over the length, and eight bytes are written that no array has. The names
here are as long as a `std::string` gets, so `size` is the machine word the class declares.
-/

namespace AuroraSizing.Wire.ClientFrames

open Foundation.Bytes Foundation.Copies

/-- One request on its way to the socket: its length field, the positions of its array that
`encode` fills, the bytes `new char[]` is asked for and the bytes `asio::write` takes. Where
the length has gone negative `new char[]` throws, and they are what it would have sent. -/
structure SentFrame where
  declared : ℤ
  filled : Finset ℤ
  allocated : BitVec 64
  written : BitVec 64

/-- The length field is the bytes filled and the bytes written, and the array has as many. -/
structure SentFrame.SelfConsistent (f : SentFrame) : Prop where
  filled : f.declared = f.filled.card
  written : f.declared = f.written.toNat
  allocated : f.declared ≤ f.allocated.toNat

/-- Bytes beyond the declared frame, and beyond the array, are sent. -/
structure SentFrame.Overruns (f : SentFrame) : Prop where
  filled : (f.filled.card : ℤ) < f.declared
  written : f.declared + 8 = f.written.toNat
  allocated : f.allocated.toNat < f.written.toNat

/-- `asio::buffer(request.encode(), request.size + sizeof(size_t))` -/
def write {w : ℕ} (size : BitVec w) (copies : List Copy) (allocated : BitVec 64) : SentFrame where
  declared := size.toInt
  filled := Foundation.Copies.filled copies
  allocated := allocated
  written := size.signExtend 64 + 8

/-- The positions that count as filled hold the same whatever the array held before. -/
theorem mem_filled_write {w : ℕ} {size : BitVec w} {copies : List Copy} {allocated : BitVec 64}
    {i : ℤ} : i ∈ (write size copies allocated).filled ↔
      ∀ memory other, Foundation.Copies.write copies memory i =
        Foundation.Copies.write copies other i :=
  mem_filled_iff

/-! ## The requests -/

/-- `c_str()`, of which `size() + 1` bytes are copied. -/
def cStr (s : Bytes) : Bytes := s ++ [0]

theorem length_cStr (s : Bytes) : (cStr s).length = s.length + 1 := by simp [cStr]

/-- `client/messages/attach.h` -/
structure AttachRequest where
  userName : Bytes
  appName : Bytes
  version : BitVec 16
  revision : BitVec 16

namespace AttachRequest

/-- `short size` -/
def size (r : AttachRequest) : BitVec 16 :=
  BitVec.ofNat 16 (r.userName.length + 1 + r.appName.length + 1 + 2 + 2 + 4 + 2)

def copies (r : AttachRequest) : List Copy :=
  let index : BitVec 32 := 0
  let size := ⟨index.toInt, le 2 r.size.toNat⟩
  let index := index + 2
  let msgType := ⟨index.toInt, le 2 MessageType.srvMsgAttach.code⟩
  let index := index + 2
  let userName := ⟨index.toInt, cStr r.userName⟩
  let index := index + BitVec.ofNat 32 (r.userName.length + 1)
  let appName := ⟨index.toInt, cStr r.appName⟩
  let index := index + BitVec.ofNat 32 (r.appName.length + 1)
  let version := ⟨index.toInt, le 2 r.version.toNat⟩
  let index := index + 2
  let revision := ⟨index.toInt, le 2 r.revision.toNat⟩
  [size, msgType, userName, appName, version, revision]

end AttachRequest

/-- `client/messages/lookup.h` -/
structure NameLookupRequest where
  type : LookupType
  count : BitVec 16
  namePrefix : Bytes

namespace NameLookupRequest

/-- `int size` -/
def size (r : NameLookupRequest) : BitVec 32 :=
  BitVec.ofNat 32 (4 + 4 + 2 + 2 + r.namePrefix.length + 1)

def copies (r : NameLookupRequest) : List Copy :=
  let index : BitVec 32 := 0
  let size := ⟨index.toInt, le 4 r.size.toNat⟩
  let index := index + 4
  let msgType := ⟨index.toInt, le 2 MessageType.srvMsgNameLookup.code⟩
  let index := index + 2
  -- memcpy(data, &type, sizeof(short)), without the index
  let type := ⟨0, le 2 r.type.code.toNat⟩
  let index := index + 2
  let count := ⟨index.toInt, le 2 r.count.toNat⟩
  let index := index + 2
  let namePrefix := ⟨index.toInt, cStr r.namePrefix⟩
  [size, msgType, type, count, namePrefix]

end NameLookupRequest

/-- `client/messages/getbyname.h` -/
structure GetByNameRequest where
  securityName : Bytes

namespace GetByNameRequest

/-- `int size` -/
def size (r : GetByNameRequest) : BitVec 32 := BitVec.ofNat 32 (4 + 4 + r.securityName.length + 1)

def copies (r : GetByNameRequest) : List Copy :=
  let index : BitVec 32 := 0
  let size := ⟨index.toInt, le 4 r.size.toNat⟩
  let index := index + 4
  let msgType := ⟨index.toInt, le 2 MessageType.srvMsgGetByName.code⟩
  let index := index + 2
  let securityName := ⟨index.toInt, cStr r.securityName⟩
  [size, msgType, securityName]

end GetByNameRequest

/-! ## Client -/

/-- `Client::attach`; its array has `size + sizeof(size)` bytes. -/
def attach (r : AttachRequest) : SentFrame := write r.size r.copies (r.size.signExtend 64 + 2)

/-- `Client::lookup` -/
def lookup (r : NameLookupRequest) : SentFrame := write r.size r.copies (r.size.signExtend 64)

/-- `Client::getSecurity` -/
def getSecurity (r : GetByNameRequest) : SentFrame := write r.size r.copies (r.size.signExtend 64)

/-! ## The length and what is written -/

/-- The bytes written are eight more than the length says, whatever the length. -/
theorem declared_ne_written {w : ℕ} (hw : w ≤ 64) (size : BitVec w) (copies : List Copy)
    (allocated : BitVec 64) :
    (write size copies allocated).declared ≠ (write size copies allocated).written.toNat := by
  intro h
  have hint : (size.signExtend 64).toInt = size.toInt := BitVec.toInt_signExtend_of_le hw
  have hcong : size.signExtend 64 = size.signExtend 64 + 8 := by
    have hof : BitVec.ofInt 64 size.toInt = size.signExtend 64 + 8 := by
      have hnat : size.toInt = (size.signExtend 64 + 8).toNat := h
      rw [hnat, BitVec.ofInt_natCast, BitVec.ofNat_toNat, BitVec.setWidth_eq]
    rwa [← hint, BitVec.ofInt_toInt] at hof
  have hzero : (8 : BitVec 64) = 0 := by
    have hsub := congrArg (· - size.signExtend 64) hcong
    simp only [BitVec.sub_self] at hsub
    rwa [BitVec.add_comm, BitVec.add_sub_cancel, eq_comm] at hsub
  exact absurd hzero (by decide)

theorem not_selfConsistent {w : ℕ} (hw : w ≤ 64) (size : BitVec w) (copies : List Copy)
    (allocated : BitVec 64) : ¬ (write size copies allocated).SelfConsistent := fun h =>
  declared_ne_written hw size copies allocated h.written

/-- **No frame of the client is self-consistent**, for any names, counts and prefixes. -/
theorem client_frames_never_selfConsistent (a : AttachRequest) (l : NameLookupRequest)
    (g : GetByNameRequest) :
    ¬ (attach a).SelfConsistent ∧ ¬ (lookup l).SelfConsistent ∧ ¬ (getSecurity g).SelfConsistent :=
  ⟨not_selfConsistent (by decide) a.size a.copies _,
    not_selfConsistent (by decide) l.size l.copies _,
    not_selfConsistent (by decide) g.size g.copies _⟩

/-- `Client::attach()` as it is written. -/
def rahul : AttachRequest where
  userName := [82, 97, 104, 117, 108]
  appName := [115, 101, 99, 100, 98]
  version := 1
  revision := 2

/-- It declares 22 bytes, fills 20, allocates 24 and writes 30. -/
theorem rahul_not_selfConsistent :
    ((attach rahul).declared = 22 ∧ (attach rahul).filled.card = 20 ∧
        (attach rahul).allocated.toNat = 24 ∧ (attach rahul).written.toNat = 30) ∧
      ¬ (attach rahul).SelfConsistent := by
  have hfigures : (attach rahul).declared = 22 ∧ (attach rahul).filled.card = 20 ∧
      (attach rahul).allocated.toNat = 24 ∧ (attach rahul).written.toNat = 30 := by
    decide +kernel
  refine ⟨hfigures, ?_⟩
  intro h
  have hwritten := h.written
  rw [hfigures.1, hfigures.2.2.2] at hwritten
  exact absurd hwritten (by decide)

/-! ## The figures -/

theorem toInt_of_small {w n : ℕ} (hpos : 0 < w) (h : n < 2 ^ (w - 1)) :
    (BitVec.ofNat w n).toInt = n := by
  have hpow : 2 ^ w = 2 * 2 ^ (w - 1) := by
    rw [← pow_succ', Nat.sub_add_cancel hpos]
  exact toInt_ofNat_of_lt (by omega)

/-- A length that fits its field goes to the socket as it is. -/
theorem signExtend_of_small {w n : ℕ} (hpos : 0 < w) (h : n < 2 ^ (w - 1)) :
    (BitVec.ofNat w n).signExtend 64 = BitVec.ofNat 64 n := by
  rw [BitVec.signExtend, toInt_of_small hpos h, BitVec.ofInt_natCast]

/-- The index after as many bytes. -/
theorem index_toInt {n : ℕ} (h : n < 2 ^ 31) : (BitVec.ofNat 32 n).toInt = n :=
  toInt_of_small (by decide) h

/-- A frame of `n` bytes by its own count, of which `encode` fills fewer, and whose array has
`extra` more. -/
theorem overruns {w n extra : ℕ} {copies : List Copy} (hpos : 0 < w) (hw : w ≤ 64)
    (hn : n < 2 ^ (w - 1)) (hfilled : (filled copies).card < n) (hextra : extra < 8) :
    (write (BitVec.ofNat w n) copies
      ((BitVec.ofNat w n).signExtend 64 + BitVec.ofNat 64 extra)).Overruns := by
  have hpow : 2 ^ (w - 1) ≤ 2 ^ 63 := Nat.pow_le_pow_right (by decide) (by omega)
  have hwritten : (BitVec.ofNat 64 n + 8).toNat = n + 8 := by
    rw [BitVec.toNat_add, BitVec.toNat_ofNat]
    show (n % 2 ^ 64 + 8) % 2 ^ 64 = n + 8
    omega
  have hallocated : (BitVec.ofNat 64 n + BitVec.ofNat 64 extra).toNat = n + extra := by
    rw [BitVec.toNat_add, BitVec.toNat_ofNat, BitVec.toNat_ofNat]
    omega
  have hsize := toInt_of_small hpos hn
  constructor
  · show ((filled copies).card : ℤ) < (BitVec.ofNat w n).toInt
    rw [hsize]
    exact_mod_cast hfilled
  · show (BitVec.ofNat w n).toInt + 8 = ((BitVec.ofNat w n).signExtend 64 + 8).toNat
    rw [hsize, signExtend_of_small hpos hn, hwritten]
    rfl
  · show ((BitVec.ofNat w n).signExtend 64 + BitVec.ofNat 64 extra).toNat <
      ((BitVec.ofNat w n).signExtend 64 + 8).toNat
    rw [signExtend_of_small hpos hn, hwritten, hallocated]
    omega

theorem AttachRequest.card_filled (r : AttachRequest)
    (h : r.userName.length + r.appName.length + 12 < 2 ^ 15) :
    (filled r.copies).card = r.userName.length + r.appName.length + 10 := by
  have hstart : (0 : BitVec 32) + 2 + 2 = BitVec.ofNat 32 4 := rfl
  have hcontiguous : Contiguous 0 r.copies := by
    simp only [AttachRequest.copies, Contiguous, hstart, ← BitVec.ofNat_add, length_le,
      length_cStr]
    refine ⟨rfl, rfl, ?_, ?_, ?_, ?_, trivial⟩
    · rfl
    · rw [index_toInt (by omega)]
      omega
    · rw [index_toInt (by omega)]
      omega
    · have htwo : (2 : BitVec 32) = BitVec.ofNat 32 2 := rfl
      rw [htwo, ← BitVec.ofNat_add, index_toInt (by omega)]
      omega
  rw [Foundation.Copies.card_filled hcontiguous]
  simp only [AttachRequest.copies, total, List.map_cons, List.map_nil, List.sum_cons, List.sum_nil,
    length_le, length_cStr]
  omega

theorem GetByNameRequest.card_filled (r : GetByNameRequest) :
    (filled r.copies).card = r.securityName.length + 7 := by
  have hcontiguous : Contiguous 0 r.copies := ⟨rfl, rfl, rfl, trivial⟩
  rw [Foundation.Copies.card_filled hcontiguous]
  simp only [GetByNameRequest.copies, total, List.map_cons, List.map_nil, List.sum_cons,
    List.sum_nil, length_le, length_cStr]
  omega

/-- The type goes over the length, and its own two bytes are left as they were. -/
theorem NameLookupRequest.card_filled (r : NameLookupRequest) :
    (filled r.copies).card = r.namePrefix.length + 9 := by
  have hcopies : filled r.copies =
      Finset.Ico 0 6 ∪ Finset.Ico 8 (8 + ((r.namePrefix.length + 3 : ℕ) : ℤ)) := by
    have hfront : filled [⟨0, le 4 r.size.toNat⟩,
        ⟨4, le 2 MessageType.srvMsgNameLookup.code⟩] = Finset.Ico 0 6 :=
      filled_of_contiguous ⟨rfl, rfl, trivial⟩
    have htype : filled [⟨0, le 2 r.type.code.toNat⟩] = Finset.Ico 0 2 :=
      filled_of_contiguous ⟨rfl, trivial⟩
    have htotal : total [⟨8, le 2 r.count.toNat⟩, ⟨10, cStr r.namePrefix⟩] =
        r.namePrefix.length + 3 := by
      simp only [total, List.map_cons, List.map_nil, List.sum_cons, List.sum_nil, length_le,
        length_cStr]
      omega
    have hbehind : filled [⟨8, le 2 r.count.toNat⟩, ⟨10, cStr r.namePrefix⟩] =
        Finset.Ico 8 (8 + ((r.namePrefix.length + 3 : ℕ) : ℤ)) := by
      rw [← htotal]
      exact filled_of_contiguous ⟨rfl, rfl, trivial⟩
    have hsplit : r.copies =
        [⟨0, le 4 r.size.toNat⟩, ⟨4, le 2 MessageType.srvMsgNameLookup.code⟩] ++
          ([⟨0, le 2 r.type.code.toNat⟩] ++
            [⟨8, le 2 r.count.toNat⟩, ⟨10, cStr r.namePrefix⟩]) := rfl
    have hsub : Finset.Ico (0 : ℤ) 2 ⊆ Finset.Ico 0 6 := Finset.Ico_subset_Ico_right (by decide)
    rw [hsplit, filled_append, filled_append, hfront, htype, hbehind, ← Finset.union_assoc,
      Finset.union_eq_left.mpr hsub]
  have hdisjoint : Disjoint (Finset.Ico (0 : ℤ) 6)
      (Finset.Ico 8 (8 + ((r.namePrefix.length + 3 : ℕ) : ℤ))) := by
    rw [Finset.disjoint_left]
    intro i hlow hhigh
    rw [Finset.mem_Ico] at hlow hhigh
    omega
  rw [hcopies, Finset.card_union_of_disjoint hdisjoint, Int.card_Ico, Int.card_Ico]
  omega

/-- **Every frame whose length fits its field overruns it**: fewer bytes are filled than it
declares, eight more are written, and those lie beyond the array too. -/
theorem client_frames_overrun :
    (∀ r : AttachRequest, r.userName.length + r.appName.length + 12 < 2 ^ 15 →
        (attach r).Overruns) ∧
      (∀ r : NameLookupRequest, r.namePrefix.length + 13 < 2 ^ 31 → (lookup r).Overruns) ∧
      ∀ r : GetByNameRequest, r.securityName.length + 9 < 2 ^ 31 → (getSecurity r).Overruns := by
  refine ⟨?_, ?_, ?_⟩
  · intro r h
    have hcard := r.card_filled h
    exact overruns (by decide) (by decide) (by omega) (by omega) (show 2 < 8 by decide)
  · intro r h
    have hcard := r.card_filled
    have hnone : r.size.signExtend 64 = r.size.signExtend 64 + BitVec.ofNat 64 0 := by simp
    rw [lookup, hnone]
    exact overruns (by decide) (by decide) (by omega) (by omega) (by decide)
  · intro r h
    have hcard := r.card_filled
    have hnone : r.size.signExtend 64 = r.size.signExtend 64 + BitVec.ofNat 64 0 := by simp
    rw [getSecurity, hnone]
    exact overruns (by decide) (by decide) (by omega) (by omega) (by decide)

/-! ## The requests the server can delimit -/

/-- The frame of a request whose names the server's windows can delimit. -/
def ofAttach (r : Wire.AttachRequest) : AttachRequest :=
  ⟨r.userName.bytes, r.appName.bytes, r.version, r.revision⟩

def ofGetByName (r : Wire.GetByNameRequest) : GetByNameRequest := ⟨r.securityName.bytes⟩

def ofNameLookup (r : Wire.NameLookupRequest) : NameLookupRequest :=
  ⟨r.type, r.count, r.namePrefix.bytes⟩

/-- The heap around an array at `data`. -/
def around (heap : Memory) : ℤ → UInt8 := fun i => heap i.toNat

theorem holds_read (heap : Memory) (n : ℕ) : Holds (around heap) (heap.read 0 n) := by
  intro i hi
  rw [Memory.length_read] at hi
  simp [Memory.read, around, hi]

theorem ofAttach_size (r : Wire.AttachRequest) : (ofAttach r).size.toNat = r.size := by
  have huser : r.userName.bytes.length < 32 := r.userName.lt
  have happ : r.appName.bytes.length < 32 := r.appName.lt
  rw [AttachRequest.size, BitVec.toNat_ofNat]
  show (r.userName.bytes.length + 1 + r.appName.bytes.length + 1 + 2 + 2 + 4 + 2) % 2 ^ 16 = _
  rw [Wire.AttachRequest.size]
  omega

theorem ofGetByName_size (r : Wire.GetByNameRequest) :
    (ofGetByName r).size.toNat = r.size := by
  have hlt : r.securityName.bytes.length < 32 := r.securityName.lt
  rw [GetByNameRequest.size, BitVec.toNat_ofNat]
  show (4 + 4 + r.securityName.bytes.length + 1) % 2 ^ 32 = _
  rw [Wire.GetByNameRequest.size]
  omega

theorem ofNameLookup_size (r : Wire.NameLookupRequest) :
    (ofNameLookup r).size.toNat = r.size := by
  have hlt : r.namePrefix.bytes.length < 32 := r.namePrefix.lt
  rw [NameLookupRequest.size, BitVec.toNat_ofNat]
  show (4 + 4 + 2 + 2 + r.namePrefix.bytes.length + 1) % 2 ^ 32 = _
  rw [Wire.NameLookupRequest.size]
  omega

/-- `encode` is the copies, one after the other. -/
theorem attach_encode_holds (heap : Memory) (r : Wire.AttachRequest) :
    Holds (Foundation.Copies.write (ofAttach r).copies (around heap)) (r.encode heap) := by
  have huser : r.userName.bytes.length < 32 := r.userName.lt
  have happ : r.appName.bytes.length < 32 := r.appName.lt
  have hsize : r.size = r.userName.bytes.length + r.appName.bytes.length + 12 := by
    rw [Wire.AttachRequest.size]
    omega
  have h0 := holds_read heap (r.size + 2)
  have hroom : (heap.read 0 (r.size + 2)).length =
      r.userName.bytes.length + r.appName.bytes.length + 14 := by
    rw [Memory.length_read, hsize]
  have h1 := h0.overwrite 0 (le 2 r.size) (by rw [length_le]; omega)
  have h2 := h1.2.overwrite 2 (le 2 MessageType.srvMsgAttach.code) (by rw [length_le]; omega)
  have h3 := h2.2.overwrite (2 + 2) r.userName.cStr (by rw [CName.length_cStr]; omega)
  have h4 := h3.2.overwrite (2 + 2 + (r.userName.bytes.length + 1)) r.appName.cStr
    (by rw [CName.length_cStr]; omega)
  have h5 := h4.2.overwrite (2 + 2 + (r.userName.bytes.length + 1) + (r.appName.bytes.length + 1))
    (le 2 r.version.toNat) (by rw [length_le]; omega)
  have h6 := h5.2.overwrite
    (2 + 2 + (r.userName.bytes.length + 1) + (r.appName.bytes.length + 1) + 2)
    (le 2 r.revision.toNat) (by rw [length_le]; omega)
  have hcopies : (ofAttach r).copies = [⟨((0 : ℕ) : ℤ), le 2 r.size⟩,
      ⟨((2 : ℕ) : ℤ), le 2 MessageType.srvMsgAttach.code⟩,
      ⟨((2 + 2 : ℕ) : ℤ), r.userName.cStr⟩,
      ⟨((2 + 2 + (r.userName.bytes.length + 1) : ℕ) : ℤ), r.appName.cStr⟩,
      ⟨((2 + 2 + (r.userName.bytes.length + 1) + (r.appName.bytes.length + 1) : ℕ) : ℤ),
        le 2 r.version.toNat⟩,
      ⟨((2 + 2 + (r.userName.bytes.length + 1) + (r.appName.bytes.length + 1) + 2 : ℕ) : ℤ),
        le 2 r.revision.toNat⟩] := by
    have hstart : (0 : BitVec 32) + 2 + 2 = BitVec.ofNat 32 (2 + 2) := rfl
    have htwo : (2 : BitVec 32) = BitVec.ofNat 32 2 := rfl
    simp only [AttachRequest.copies, ofAttach_size, hstart]
    rw [htwo, ← BitVec.ofNat_add, ← BitVec.ofNat_add, ← BitVec.ofNat_add]
    simp only [ofAttach]
    rw [index_toInt (by omega), index_toInt (by omega), index_toInt (by omega),
      index_toInt (by omega)]
    rfl
  rw [hcopies]
  exact h6.2

theorem getByName_encode_holds (heap : Memory) (r : Wire.GetByNameRequest) :
    Holds (Foundation.Copies.write (ofGetByName r).copies (around heap)) (r.encode heap) := by
  have h0 := holds_read heap r.size
  have hroom : (heap.read 0 r.size).length = r.securityName.bytes.length + 9 := by
    rw [Memory.length_read, Wire.GetByNameRequest.size]
    omega
  have h1 := h0.overwrite 0 (le 4 r.size) (by rw [length_le]; omega)
  have h2 := h1.2.overwrite 4 (le 2 MessageType.srvMsgGetByName.code) (by rw [length_le]; omega)
  have h3 := h2.2.overwrite (4 + 2) r.securityName.cStr (by rw [CName.length_cStr]; omega)
  have hcopies : (ofGetByName r).copies = [⟨((0 : ℕ) : ℤ), le 4 r.size⟩,
      ⟨((4 : ℕ) : ℤ), le 2 MessageType.srvMsgGetByName.code⟩,
      ⟨((4 + 2 : ℕ) : ℤ), r.securityName.cStr⟩] := by
    simp only [GetByNameRequest.copies, ofGetByName_size]
    rfl
  rw [hcopies]
  exact h3.2

theorem nameLookup_encode_holds (heap : Memory) (r : Wire.NameLookupRequest) :
    Holds (Foundation.Copies.write (ofNameLookup r).copies (around heap)) (r.encode heap) := by
  have h0 := holds_read heap r.size
  have hroom : (heap.read 0 r.size).length = r.namePrefix.bytes.length + 13 := by
    rw [Memory.length_read, Wire.NameLookupRequest.size]
    omega
  have h1 := h0.overwrite 0 (le 4 r.size) (by rw [length_le]; omega)
  have h2 := h1.2.overwrite 4 (le 2 MessageType.srvMsgNameLookup.code) (by rw [length_le]; omega)
  have h3 := h2.2.overwrite 0 (le 2 r.type.code.toNat) (by rw [length_le]; omega)
  have h4 := h3.2.overwrite (4 + 2 + 2) (le 2 r.count.toNat) (by rw [length_le]; omega)
  have h5 := h4.2.overwrite (4 + 2 + 2 + 2) r.namePrefix.cStr (by rw [CName.length_cStr]; omega)
  have hcopies : (ofNameLookup r).copies = [⟨((0 : ℕ) : ℤ), le 4 r.size⟩,
      ⟨((4 : ℕ) : ℤ), le 2 MessageType.srvMsgNameLookup.code⟩,
      ⟨((0 : ℕ) : ℤ), le 2 r.type.code.toNat⟩,
      ⟨((4 + 2 + 2 : ℕ) : ℤ), le 2 r.count.toNat⟩,
      ⟨((4 + 2 + 2 + 2 : ℕ) : ℤ), r.namePrefix.cStr⟩] := by
    simp only [NameLookupRequest.copies, ofNameLookup_size]
    rfl
  rw [hcopies]
  exact h5.2

end AuroraSizing.Wire.ClientFrames

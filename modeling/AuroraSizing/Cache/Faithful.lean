import AuroraSizing.Cache.ObjectDTO
import AuroraSizing.Foundation.Readers

/-!
# What `fromBytes` accepts

The format is a chain of fields, each of a fixed length or behind its length. `fromBytes` stops
at the end of the last and never looks further, so what it accepts starts with the bytes of the
object, and nothing that stops short of them is accepted.
-/

namespace AuroraSizing.Cache

open Foundation.Bytes Foundation.Readers Foundation.Utf8

/-- A `byte[]`: its length is an `int`. -/
structure JavaBytes where
  data : Bytes
  lt : data.length < 2 ^ 31

/-- The fields that `fromBytes` cuts out of the bytes, before it makes strings of two of them. -/
structure Fields where
  nameLength : JInt
  name : Bytes
  typeId : JInt
  lastTransaction : JLong
  updateCount : JLong
  dateCreated : JInt
  dbIdUpdated : JInt
  versionInfo : JInt
  timUpdatedLength : JInt
  timeUpdated : Bytes
  memLength : JInt
  mem : Bytes

namespace Fields

def cut : Reader UInt8 BufferError Fields := do
  let nameLength ← (getInt : Reader UInt8 BufferError JInt)
  let name ← (getBytes nameLength : Reader UInt8 BufferError Bytes)
  let typeId ← (getInt : Reader UInt8 BufferError JInt)
  let lastTransaction ← (getLong : Reader UInt8 BufferError JLong)
  let updateCount ← (getLong : Reader UInt8 BufferError JLong)
  let dateCreated ← (getInt : Reader UInt8 BufferError JInt)
  let dbIdUpdated ← (getInt : Reader UInt8 BufferError JInt)
  let versionInfo ← (getInt : Reader UInt8 BufferError JInt)
  let timUpdatedLength ← (getInt : Reader UInt8 BufferError JInt)
  let timeUpdated ← (getBytes timUpdatedLength : Reader UInt8 BufferError Bytes)
  let memLength ← (getInt : Reader UInt8 BufferError JInt)
  let mem ← (getBytes memLength : Reader UInt8 BufferError Bytes)
  return {
    nameLength, name, typeId, lastTransaction, updateCount, dateCreated, dbIdUpdated, versionInfo
    timUpdatedLength, timeUpdated, memLength, mem }

def toObjectDTO (malformed : Bytes → String) (c : Fields) : ObjectDTO where
  name := decode malformed c.name
  typeId := c.typeId
  lastTransaction := c.lastTransaction
  updateCount := c.updateCount
  dateCreated := c.dateCreated
  dbIdUpdated := c.dbIdUpdated
  versionInfo := c.versionInfo
  timeUpdated := decode malformed c.timeUpdated
  mem := c.mem

def chunks (c : Fields) : List Bytes :=
  [be 4 c.nameLength.toNat, c.name, be 4 c.typeId.toNat, be 8 c.lastTransaction.toNat,
    be 8 c.updateCount.toNat, be 4 c.dateCreated.toNat, be 4 c.dbIdUpdated.toNat,
    be 4 c.versionInfo.toNat, be 4 c.timUpdatedLength.toNat, c.timeUpdated,
    be 4 c.memLength.toNat, c.mem]

end Fields

theorem fromBytes_eq_cut (malformed : Bytes → String) (bytes : Bytes) :
    ObjectDTO.fromBytes malformed bytes =
      (Fields.cut bytes).map fun p => p.1.toObjectDTO malformed := by
  simp only [Fields.cut, map_bind_eq]
  rfl

/-! ## One field -/

theorem readN_short {n : ℕ} {w q : Bytes} (hw : w.length = n) (hq : q <+: w) (hne : q ≠ w) :
    readN n q = none := by
  refine if_neg ?_
  intro hle
  exact hne (hq.eq_of_length (Nat.le_antisymm hq.length_le (hw ▸ hle)))

theorem reads_getInt (v : JInt) :
    Reads (getInt : Reader UInt8 BufferError JInt) (be 4 v.toNat) v := by
  refine ⟨getInt_append v, ?_⟩
  intro q hq hne
  refine ⟨.bufferUnderflow, ?_⟩
  rw [getInt, readN_short (length_be 4 _) hq hne]

theorem reads_getLong (v : JLong) :
    Reads (getLong : Reader UInt8 BufferError JLong) (be 8 v.toNat) v := by
  refine ⟨getLong_append v, ?_⟩
  intro q hq hne
  refine ⟨.bufferUnderflow, ?_⟩
  rw [getLong, readN_short (length_be 8 _) hq hne]

theorem reads_getBytes {length : JInt} {bs : Bytes} (h : length.toInt = bs.length) :
    Reads (getBytes length : Reader UInt8 BufferError Bytes) bs bs := by
  refine ⟨getBytes_append h, ?_⟩
  intro q hq hne
  have hneg : ¬ length.toInt < 0 := by omega
  have hnat : bs.length = length.toInt.toNat := by omega
  refine ⟨.bufferUnderflow, ?_⟩
  rw [getBytes, if_neg hneg, readN_short hnat hq hne]

theorem getInt_eq_ok {bs rest : Bytes} {v : JInt} (h : getInt bs = .ok (v, rest)) :
    bs = be 4 v.toNat ++ rest := by
  unfold getInt at h
  split at h
  case h_1 xs rest' hread =>
    cases h
    obtain ⟨rfl, hlen⟩ := readN_eq_some.mp hread
    rw [be_beBits rfl hlen]
  case h_2 => cases h

theorem getLong_eq_ok {bs rest : Bytes} {v : JLong} (h : getLong bs = .ok (v, rest)) :
    bs = be 8 v.toNat ++ rest := by
  unfold getLong at h
  split at h
  case h_1 xs rest' hread =>
    cases h
    obtain ⟨rfl, hlen⟩ := readN_eq_some.mp hread
    rw [be_beBits rfl hlen]
  case h_2 => cases h

theorem getBytes_eq_ok {length : JInt} {bs xs rest : Bytes}
    (h : getBytes length bs = .ok (xs, rest)) :
    bs = xs ++ rest ∧ length.toInt = xs.length := by
  unfold getBytes at h
  split at h
  case isTrue => cases h
  case isFalse hneg =>
    split at h
    case h_1 p hread =>
      cases h
      obtain ⟨rfl, hlen⟩ := readN_eq_some.mp hread
      exact ⟨rfl, by omega⟩
    case h_2 => cases h

/-! ## All of them -/

namespace Fields

/-- The lengths are those of what follows them. -/
structure Sized (c : Fields) : Prop where
  name : c.nameLength.toInt = c.name.length
  timeUpdated : c.timUpdatedLength.toInt = c.timeUpdated.length
  mem : c.memLength.toInt = c.mem.length

theorem reads_cut {c : Fields} (h : c.Sized) : Reads cut c.chunks.flatten c :=
  (reads_getInt _).bind <| (reads_getBytes h.name).bind <| (reads_getInt _).bind <|
    (reads_getLong _).bind <| (reads_getLong _).bind <| (reads_getInt _).bind <|
    (reads_getInt _).bind <| (reads_getInt _).bind <| (reads_getInt _).bind <|
    (reads_getBytes h.timeUpdated).bind <| (reads_getInt _).bind <|
    (reads_getBytes h.mem).bind (reads_pure _)

/-- What was cut out stands at the front, and nothing else was read. -/
theorem cut_eq_ok {bytes rest : Bytes} {c : Fields} (h : cut bytes = .ok (c, rest)) :
    c.Sized ∧ bytes = c.chunks.flatten ++ rest := by
  rw [cut] at h
  obtain ⟨nameLength, b₁, h₁, h⟩ := bind_eq_ok.mp h
  obtain ⟨name, b₂, h₂, h⟩ := bind_eq_ok.mp h
  obtain ⟨typeId, b₃, h₃, h⟩ := bind_eq_ok.mp h
  obtain ⟨lastTransaction, b₄, h₄, h⟩ := bind_eq_ok.mp h
  obtain ⟨updateCount, b₅, h₅, h⟩ := bind_eq_ok.mp h
  obtain ⟨dateCreated, b₆, h₆, h⟩ := bind_eq_ok.mp h
  obtain ⟨dbIdUpdated, b₇, h₇, h⟩ := bind_eq_ok.mp h
  obtain ⟨versionInfo, b₈, h₈, h⟩ := bind_eq_ok.mp h
  obtain ⟨timUpdatedLength, b₉, h₉, h⟩ := bind_eq_ok.mp h
  obtain ⟨timeUpdated, b₁₀, h₁₀, h⟩ := bind_eq_ok.mp h
  obtain ⟨memLength, b₁₁, h₁₁, h⟩ := bind_eq_ok.mp h
  obtain ⟨mem, b₁₂, h₁₂, h⟩ := bind_eq_ok.mp h
  cases h
  obtain ⟨hb₂, hname⟩ := getBytes_eq_ok h₂
  obtain ⟨hb₁₀, htime⟩ := getBytes_eq_ok h₁₀
  obtain ⟨hb₁₂, hmem⟩ := getBytes_eq_ok h₁₂
  refine ⟨⟨hname, htime, hmem⟩, ?_⟩
  rw [getInt_eq_ok h₁, hb₂, getInt_eq_ok h₃, getLong_eq_ok h₄, getLong_eq_ok h₅,
    getInt_eq_ok h₆, getInt_eq_ok h₇, getInt_eq_ok h₈, getInt_eq_ok h₉, hb₁₀,
    getInt_eq_ok h₁₁, hb₁₂]
  simp only [chunks, List.flatten_cons, List.flatten_nil, List.append_assoc, List.nil_append]

theorem ofNat_of_toInt {v : JInt} {n : ℕ} (h : v.toInt = n) : BitVec.ofNat 32 n = v := by
  have hlt : v.toInt < 2 ^ 31 := BitVec.toInt_lt
  apply BitVec.eq_of_toInt_eq
  rw [toInt_ofNat_of_lt (by omega), h]

/-- The fields of an object that `toBytes` takes. -/
def ofObjectDTO (d : ObjectDTO) : Fields where
  nameLength := javaLength d.name
  name := encode d.name
  typeId := d.typeId
  lastTransaction := d.lastTransaction
  updateCount := d.updateCount
  dateCreated := d.dateCreated
  dbIdUpdated := d.dbIdUpdated
  versionInfo := d.versionInfo
  timUpdatedLength := javaLength d.timeUpdated
  timeUpdated := encode d.timeUpdated
  memLength := arrayLength d.mem
  mem := d.mem

theorem chunks_ofObjectDTO (d : ObjectDTO) : (ofObjectDTO d).chunks = d.chunks := rfl

theorem reads_toBytes {d : ObjectDTO} {bs : Bytes} (h : d.toBytes = .ok bs) :
    Reads cut bs (ofObjectDTO d) := by
  obtain ⟨hsize, heq, rfl⟩ := ObjectDTO.toBytes_eq_ok.mp h
  obtain ⟨hname, htime⟩ := d.size_eq_iff.mp heq
  rw [ObjectDTO.size] at hsize
  rw [← chunks_ofObjectDTO]
  refine reads_cut ⟨?_, ?_, ?_⟩
  · show (javaLength d.name).toInt = (encode d.name).length
    rw [javaLength, toInt_ofNat_of_lt (by omega), (utf16Length_eq_iff _).mpr hname]
  · show (javaLength d.timeUpdated).toInt = (encode d.timeUpdated).length
    rw [javaLength, toInt_ofNat_of_lt (by omega), (utf16Length_eq_iff _).mpr htime]
  · exact toInt_ofNat_of_lt (by omega)

/-- Fields that are ASCII make the object they are the fields of. -/
theorem ofObjectDTO_toObjectDTO (malformed : Bytes → String) {c : Fields} (h : c.Sized)
    (hname : ∀ b ∈ c.name, b ≤ 0x7F) (htime : ∀ b ∈ c.timeUpdated, b ≤ 0x7F) :
    ofObjectDTO (c.toObjectDTO malformed) = c ∧
      isAscii (c.toObjectDTO malformed).name = true ∧
      isAscii (c.toObjectDTO malformed).timeUpdated = true := by
  obtain ⟨s, hs, hsAscii⟩ := exists_ascii hname
  obtain ⟨t, ht, htAscii⟩ := exists_ascii htime
  have hdecode : decode malformed c.name = s := by rw [← hs, decode_encode]
  have hdecode' : decode malformed c.timeUpdated = t := by rw [← ht, decode_encode]
  have hsLength : javaLength s = c.nameLength := by
    rw [javaLength, (utf16Length_eq_iff s).mpr hsAscii, hs]
    exact ofNat_of_toInt h.name
  have htLength : javaLength t = c.timUpdatedLength := by
    rw [javaLength, (utf16Length_eq_iff t).mpr htAscii, ht]
    exact ofNat_of_toInt h.timeUpdated
  have hmLength : arrayLength c.mem = c.memLength := ofNat_of_toInt h.mem
  refine ⟨?_, ?_, ?_⟩
  · simp only [ofObjectDTO, toObjectDTO, hdecode, hdecode', hs, ht, hsLength, htLength, hmLength]
  · show isAscii (decode malformed c.name) = true
    rw [hdecode, hsAscii]
  · show isAscii (decode malformed c.timeUpdated) = true
    rw [hdecode', htAscii]

end Fields

/-! ## The object and its bytes -/

/-- The two string fields of the bytes hold only ASCII. -/
def AsciiFields (bytes : Bytes) : Prop :=
  ∃ c rest, Fields.cut bytes = .ok (c, rest) ∧
    (∀ b ∈ c.name, b ≤ 0x7F) ∧ ∀ b ∈ c.timeUpdated, b ≤ 0x7F

/-- What `toBytes` makes of an accepted object stands at the front. -/
theorem toBytes_isPrefix (malformed : Bytes → String) (b : JavaBytes) {d : ObjectDTO}
    (h : ObjectDTO.fromBytes malformed b.data = .ok d) (hascii : AsciiFields b.data) :
    ∃ bs, d.toBytes = .ok bs ∧ bs <+: b.data := by
  obtain ⟨c, rest, hcut, hname, htime⟩ := hascii
  rw [fromBytes_eq_cut, hcut] at h
  cases h
  obtain ⟨hsized, hdata⟩ := Fields.cut_eq_ok hcut
  obtain ⟨hfields, hnameAscii, htimeAscii⟩ :=
    Fields.ofObjectDTO_toObjectDTO malformed hsized hname htime
  have hchunks : (c.toObjectDTO malformed).chunks = c.chunks := by
    rw [← Fields.chunks_ofObjectDTO, hfields]
  have hsize := (c.toObjectDTO malformed).size_eq_iff.mpr ⟨hnameAscii, htimeAscii⟩
  refine ⟨c.chunks.flatten, ?_, ?_⟩
  · refine ObjectDTO.toBytes_eq_ok.mpr ⟨?_, hsize, by rw [hchunks]⟩
    have hlt := b.lt
    rw [hdata, List.length_append] at hlt
    rw [hsize, hchunks]
    omega
  · rw [hdata]
    exact List.prefix_append _ _

/-- Nothing that stops short of an object's bytes is accepted. -/
theorem fromBytes_strict_prefix (malformed : Bytes → String) {d : ObjectDTO} {bs p : Bytes}
    (h : d.toBytes = .ok bs) (hp : p <+: bs) (hne : p ≠ bs) :
    ∃ e, ObjectDTO.fromBytes malformed p = .error e := by
  obtain ⟨e, he⟩ := (Fields.reads_toBytes h).short p hp hne
  refine ⟨e, ?_⟩
  rw [fromBytes_eq_cut, he]
  rfl

/-- **`fromBytes` is faithful on what it accepts.** -/
theorem fromBytes_faithful (malformed : Bytes → String) (b : JavaBytes) (d : ObjectDTO)
    (h : ObjectDTO.fromBytes malformed b.data = .ok d) :
    (AsciiFields b.data → ∃ bs, d.toBytes = .ok bs ∧ bs <+: b.data) ∧
      ∀ bs, d.toBytes = .ok bs → ∀ p, p <+: bs → p ≠ bs →
        ∃ e, ObjectDTO.fromBytes malformed p = .error e := by
  refine ⟨toBytes_isPrefix malformed b h, ?_⟩
  intro bs hbs p hp hne
  exact fromBytes_strict_prefix malformed hbs hp hne

/-- The bytes of `main`'s object. -/
def mainBytes : JavaBytes := ⟨(ObjectDTO.mainObject "sdf").chunks.flatten, by decide⟩

theorem mainBytes_faithful :
    (AsciiFields mainBytes.data →
      ∃ bs, (ObjectDTO.mainObject "sdf").toBytes = .ok bs ∧ bs <+: mainBytes.data) ∧
      ∀ bs, (ObjectDTO.mainObject "sdf").toBytes = .ok bs → ∀ p, p <+: bs → p ≠ bs →
        ∃ e, ObjectDTO.fromBytes (fun _ => "") p = .error e :=
  fromBytes_faithful _ mainBytes _
    (ObjectDTO.fromBytes_of_toBytes _ (ObjectDTO.toBytes_eq_ok.mpr ⟨by decide, by decide, rfl⟩))

end AuroraSizing.Cache

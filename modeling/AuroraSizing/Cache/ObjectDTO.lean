import AuroraSizing.Foundation.Bytes
import AuroraSizing.Foundation.Utf8
import AuroraSizing.Objects.Messages

/-!
# The cached form of an object

`ObjectDTO.toBytes` sizes its buffer and writes its length prefixes from
`String.length()`, which counts UTF-16 code units, and copies `getBytes()`, which
are UTF-8. `round_trips_iff` says for which objects the two agree.
-/

namespace AuroraSizing.Cache

open Foundation.Bytes Foundation.Utf8

structure ObjectDTO where
  name : String
  typeId : JInt
  lastTransaction : JLong
  updateCount : JLong
  dateCreated : JInt
  dbIdUpdated : JInt
  versionInfo : JInt
  timeUpdated : String
  mem : Bytes
deriving DecidableEq, Repr

/-! ## java.nio.ByteBuffer -/

inductive BufferError where
  | illegalArgument
  | bufferOverflow
  | bufferUnderflow
  | negativeArraySize
deriving DecidableEq, Repr

instance decidableEqExcept {ε α : Type} [DecidableEq ε] [DecidableEq α] :
    DecidableEq (Except ε α)
  | .ok a, .ok b => decidable_of_iff (a = b) (by simp)
  | .error e, .error d => decidable_of_iff (e = d) (by simp)
  | .ok _, .error _ | .error _, .ok _ => isFalse (by simp)

/-- A heap buffer between `allocate` and `array()`: the bytes put so far. -/
structure ByteBuffer where
  data : Bytes
  capacity : ℕ
  fits : data.length ≤ capacity

namespace ByteBuffer

def allocate (capacity : JInt) : Except BufferError ByteBuffer :=
  if capacity.toInt < 0 then .error .illegalArgument
  else .ok ⟨[], capacity.toInt.toNat, Nat.zero_le _⟩

def put (b : ByteBuffer) (bs : Bytes) : Except BufferError ByteBuffer :=
  if h : b.data.length + bs.length ≤ b.capacity then
    .ok ⟨b.data ++ bs, b.capacity, by rwa [List.length_append]⟩
  else .error .bufferOverflow

def putInt (b : ByteBuffer) (v : JInt) : Except BufferError ByteBuffer := b.put (be 4 v.toNat)

def putLong (b : ByteBuffer) (v : JLong) : Except BufferError ByteBuffer := b.put (be 8 v.toNat)

/-- The backing array; what was not put is zero. -/
def array (b : ByteBuffer) : Bytes := b.data ++ List.replicate (b.capacity - b.data.length) 0

end ByteBuffer

/-- `getInt` of a wrapped array, with the bytes that remain. -/
def getInt (bs : Bytes) : Except BufferError (JInt × Bytes) :=
  match readN 4 bs with
  | some (xs, rest) => .ok (beBits 32 xs, rest)
  | none => .error .bufferUnderflow

def getLong (bs : Bytes) : Except BufferError (JLong × Bytes) :=
  match readN 8 bs with
  | some (xs, rest) => .ok (beBits 64 xs, rest)
  | none => .error .bufferUnderflow

/-- `new byte[length]` and `get` of that many bytes. -/
def getBytes (length : JInt) (bs : Bytes) : Except BufferError (Bytes × Bytes) :=
  if length.toInt < 0 then .error .negativeArraySize
  else
    match readN length.toInt.toNat bs with
    | some p => .ok p
    | none => .error .bufferUnderflow

/-! ## The codec -/

/-- `String.length()` -/
def javaLength (s : String) : JInt := BitVec.ofNat 32 (utf16Length s)

def arrayLength (bs : Bytes) : JInt := BitVec.ofNat 32 bs.length

namespace ObjectDTO

def toBytes (d : ObjectDTO) : Except BufferError Bytes := do
  let buffer ← ByteBuffer.allocate
    (4 + javaLength d.name + 4 + 8 + 8 + 4 + 4 + 4 + 4 + javaLength d.timeUpdated + 4 +
      arrayLength d.mem)
  let buffer ← buffer.putInt (javaLength d.name)
  let buffer ← buffer.put (encode d.name)
  let buffer ← buffer.putInt d.typeId
  let buffer ← buffer.putLong d.lastTransaction
  let buffer ← buffer.putLong d.updateCount
  let buffer ← buffer.putInt d.dateCreated
  let buffer ← buffer.putInt d.dbIdUpdated
  let buffer ← buffer.putInt d.versionInfo
  let buffer ← buffer.putInt (javaLength d.timeUpdated)
  let buffer ← buffer.put (encode d.timeUpdated)
  let buffer ← buffer.putInt (arrayLength d.mem)
  let buffer ← buffer.put d.mem
  return buffer.array

/-- `malformed` is what `new String(byte[])` makes of bytes that are not UTF-8,
which its documentation leaves open. -/
def fromBytes (malformed : Bytes → String) (bytes : Bytes) : Except BufferError ObjectDTO := do
  let (nameLength, buffer) ← getInt bytes
  let (name, buffer) ← getBytes nameLength buffer
  let (typeId, buffer) ← getInt buffer
  let (lastTransaction, buffer) ← getLong buffer
  let (updateCount, buffer) ← getLong buffer
  let (dateCreated, buffer) ← getInt buffer
  let (dbIdUpdated, buffer) ← getInt buffer
  let (versionInfo, buffer) ← getInt buffer
  let (timUpdatedLength, buffer) ← getInt buffer
  let (timeUpdated, buffer) ← getBytes timUpdatedLength buffer
  let (memLength, buffer) ← getInt buffer
  let (mem, _) ← getBytes memLength buffer
  return {
    name := decode malformed name
    typeId, lastTransaction, updateCount, dateCreated, dbIdUpdated, versionInfo
    timeUpdated := decode malformed timeUpdated
    mem }

/-- The chunks `toBytes` puts, in order. -/
def chunks (d : ObjectDTO) : List Bytes :=
  [be 4 (javaLength d.name).toNat, encode d.name, be 4 d.typeId.toNat,
    be 8 d.lastTransaction.toNat, be 8 d.updateCount.toNat, be 4 d.dateCreated.toNat,
    be 4 d.dbIdUpdated.toNat, be 4 d.versionInfo.toNat, be 4 (javaLength d.timeUpdated).toNat,
    encode d.timeUpdated, be 4 (arrayLength d.mem).toNat, d.mem]

/-- The size `toBytes` asks for, before it is an `int`. -/
def size (d : ObjectDTO) : ℕ := 44 + utf16Length d.name + utf16Length d.timeUpdated + d.mem.length

end ObjectDTO

/-! ## Puts and gets -/

namespace ByteBuffer

theorem foldlM_put_ok (b : ByteBuffer) (cs : List Bytes)
    (h : b.data.length + cs.flatten.length ≤ b.capacity) :
    ∃ b' : ByteBuffer, cs.foldlM put b = .ok b' ∧ b'.data = b.data ++ cs.flatten ∧
      b'.capacity = b.capacity := by
  induction cs generalizing b with
  | nil => exact ⟨b, rfl, by simp, rfl⟩
  | cons c cs ih =>
      rw [List.flatten_cons, List.length_append] at h
      have hc : b.data.length + c.length ≤ b.capacity := by omega
      obtain ⟨b', hput, hdata, hcap⟩ := ih ⟨b.data ++ c, b.capacity, by simpa using hc⟩
        (by simp only [List.length_append]; omega)
      refine ⟨b', ?_, ?_, hcap⟩
      · rw [List.foldlM_cons, put, dif_pos hc]
        exact hput
      · rw [hdata, List.flatten_cons, List.append_assoc]

theorem foldlM_put_overflow (b : ByteBuffer) (cs : List Bytes)
    (h : b.capacity < b.data.length + cs.flatten.length) :
    cs.foldlM put b = .error .bufferOverflow := by
  induction cs generalizing b with
  | nil =>
      have hfits := b.fits
      simp only [List.flatten_nil, List.length_nil] at h
      omega
  | cons c cs ih =>
      rw [List.flatten_cons, List.length_append] at h
      rw [List.foldlM_cons]
      by_cases hc : b.data.length + c.length ≤ b.capacity
      · rw [put, dif_pos hc]
        exact ih _ (by simp only [List.length_append]; omega)
      · rw [put, dif_neg hc]
        rfl

end ByteBuffer

theorem ok_bind {α β : Type} (a : α) (f : α → Except BufferError β) :
    (Except.ok a >>= f) = f a := rfl

theorem getInt_append (v : JInt) (rest : Bytes) :
    getInt (be 4 v.toNat ++ rest) = .ok (v, rest) := by
  rw [getInt, readN_append (length_be 4 _)]
  show Except.ok (beBits 32 (be 4 v.toNat), rest) = _
  rw [beBits_be (by rfl)]

theorem getLong_append (v : JLong) (rest : Bytes) :
    getLong (be 8 v.toNat ++ rest) = .ok (v, rest) := by
  rw [getLong, readN_append (length_be 8 _)]
  show Except.ok (beBits 64 (be 8 v.toNat), rest) = _
  rw [beBits_be (by rfl)]

theorem getBytes_append {length : JInt} {bs : Bytes} (h : length.toInt = bs.length)
    (rest : Bytes) : getBytes length (bs ++ rest) = .ok (bs, rest) := by
  have hneg : ¬ length.toInt < 0 := by omega
  have hnat : length.toInt.toNat = bs.length := by omega
  rw [getBytes, if_neg hneg, hnat, readN_append rfl]

/-! ## What is put against what was allocated -/

namespace ObjectDTO

theorem allocated_eq (d : ObjectDTO) :
    (4 + javaLength d.name + 4 + 8 + 8 + 4 + 4 + 4 + 4 + javaLength d.timeUpdated + 4 +
      arrayLength d.mem : JInt) = BitVec.ofNat 32 d.size := by
  apply BitVec.eq_of_toNat_eq
  simp only [javaLength, arrayLength, size, BitVec.toNat_add, BitVec.toNat_ofNat,
    BitVec.ofNat_eq_ofNat]
  omega

theorem toBytes_eq (d : ObjectDTO) :
    d.toBytes = do
      let buffer ← ByteBuffer.allocate (BitVec.ofNat 32 d.size)
      let buffer ← d.chunks.foldlM ByteBuffer.put buffer
      return buffer.array := by
  rw [← allocated_eq]
  simp only [toBytes, chunks, ByteBuffer.putInt, ByteBuffer.putLong, List.foldlM_cons,
    List.foldlM_nil, bind_assoc, pure_bind]

theorem length_chunks (d : ObjectDTO) :
    d.chunks.flatten.length =
      44 + (encode d.name).length + (encode d.timeUpdated).length + d.mem.length := by
  simp only [chunks, List.flatten_cons, List.flatten_nil, List.length_append, length_be,
    List.length_nil]
  omega

theorem size_le (d : ObjectDTO) : d.size ≤ d.chunks.flatten.length := by
  have hname := utf16Length_le d.name
  have htime := utf16Length_le d.timeUpdated
  rw [length_chunks, size]
  omega

theorem size_eq_iff (d : ObjectDTO) :
    d.size = d.chunks.flatten.length ↔
      isAscii d.name = true ∧ isAscii d.timeUpdated = true := by
  have hname := utf16Length_le d.name
  have htime := utf16Length_le d.timeUpdated
  rw [← utf16Length_eq_iff, ← utf16Length_eq_iff, length_chunks, size]
  omega

/-- `toBytes` returns exactly the chunks, and only for an object whose strings are
ASCII and whose size is an `int`. -/
theorem toBytes_eq_ok {d : ObjectDTO} {bs : Bytes} :
    d.toBytes = .ok bs ↔
      d.size < 2 ^ 31 ∧ d.size = d.chunks.flatten.length ∧ bs = d.chunks.flatten := by
  rw [toBytes_eq]
  have hle := d.size_le
  by_cases hsize : d.size < 2 ^ 31
  · have hint : (BitVec.ofNat 32 d.size).toInt = d.size := toInt_ofNat_of_lt (by omega)
    have halloc : ByteBuffer.allocate (BitVec.ofNat 32 d.size) =
        .ok ⟨[], d.size, Nat.zero_le _⟩ := by
      rw [ByteBuffer.allocate, if_neg (by omega)]
      simp only [hint, Int.toNat_natCast]
    rw [halloc]
    by_cases heq : d.size = d.chunks.flatten.length
    · obtain ⟨b, hput, hdata, hcap⟩ := ByteBuffer.foldlM_put_ok
        ⟨[], d.size, Nat.zero_le _⟩ d.chunks (by simp [heq])
      have harray : b.array = d.chunks.flatten := by
        rw [ByteBuffer.array, hdata, hcap]
        simp [heq]
      show (d.chunks.foldlM ByteBuffer.put _ >>= fun b => pure b.array) = _ ↔ _
      rw [hput]
      show Except.ok b.array = .ok bs ↔ _
      rw [harray, Except.ok.injEq, eq_comm]
      exact ⟨fun h => ⟨hsize, heq, h⟩, fun h => h.2.2⟩
    · have hover := ByteBuffer.foldlM_put_overflow ⟨[], d.size, Nat.zero_le _⟩ d.chunks
        (by show d.size < 0 + d.chunks.flatten.length; omega)
      show (d.chunks.foldlM ByteBuffer.put _ >>= fun b => pure b.array) = _ ↔ _
      rw [hover]
      constructor
      · intro h
        cases h
      · intro h
        exact absurd h.2.1 heq
  · -- the wrapped size is negative or smaller than what is put
    simp only [hsize, false_and, iff_false]
    by_cases hneg : (BitVec.ofNat 32 d.size).toInt < 0
    · rw [ByteBuffer.allocate, if_pos hneg]
      exact fun h => nomatch h
    · have hlt : (BitVec.ofNat 32 d.size).toInt.toNat < d.chunks.flatten.length := by
        have hub := BitVec.toInt_lt (x := BitVec.ofNat 32 d.size)
        omega
      rw [ByteBuffer.allocate, if_neg hneg]
      have hover := ByteBuffer.foldlM_put_overflow
        ⟨[], (BitVec.ofNat 32 d.size).toInt.toNat, Nat.zero_le _⟩ d.chunks (by simpa using hlt)
      show ¬ (d.chunks.foldlM ByteBuffer.put _ >>= fun b => pure b.array) = _
      rw [hover]
      exact fun h => nomatch h

/-- What `toBytes` returned decodes to the object it came from. -/
theorem fromBytes_of_toBytes (malformed : Bytes → String) {d : ObjectDTO} {bs : Bytes}
    (h : d.toBytes = .ok bs) : fromBytes malformed bs = .ok d := by
  obtain ⟨hsize, heq, rfl⟩ := toBytes_eq_ok.mp h
  obtain ⟨hname, htime⟩ := d.size_eq_iff.mp heq
  rw [size] at hsize
  have hn : (javaLength d.name).toInt = (encode d.name).length := by
    rw [javaLength, toInt_ofNat_of_lt (by omega), (utf16Length_eq_iff _).mpr hname]
  have ht : (javaLength d.timeUpdated).toInt = (encode d.timeUpdated).length := by
    rw [javaLength, toInt_ofNat_of_lt (by omega), (utf16Length_eq_iff _).mpr htime]
  have hm : (arrayLength d.mem).toInt = d.mem.length := by
    rw [arrayLength, toInt_ofNat_of_lt (by omega)]
  simp only [fromBytes, chunks, List.flatten_cons, List.flatten_nil]
  simp only [ok_bind, getInt_append, getLong_append, getBytes_append hn, getBytes_append ht,
    getBytes_append hm, decode_encode]
  rfl

/-! ## The round trip -/

/-- `toBytes` returns and `fromBytes` of what it returned is the object. -/
def RoundTrips (malformed : Bytes → String) (d : ObjectDTO) : Prop :=
  ∃ bs, d.toBytes = .ok bs ∧ fromBytes malformed bs = .ok d

/-- **The codec loses nothing on ASCII strings only.** A string with any other
character is longer in UTF-8 than the `String.length()` its buffer was sized by,
and the puts overflow. -/
theorem round_trips_iff (malformed : Bytes → String) (d : ObjectDTO) :
    RoundTrips malformed d ↔
      d.size < 2 ^ 31 ∧ isAscii d.name = true ∧ isAscii d.timeUpdated = true := by
  rw [← size_eq_iff]
  constructor
  · rintro ⟨bs, hto, -⟩
    obtain ⟨hsize, heq, -⟩ := toBytes_eq_ok.mp hto
    exact ⟨hsize, heq⟩
  · rintro ⟨hsize, heq⟩
    have hto := toBytes_eq_ok.mpr ⟨hsize, heq, rfl⟩
    exact ⟨_, hto, fromBytes_of_toBytes malformed hto⟩

/-- The object of `ObjectDTO.main`, under another name. -/
def mainObject (name : String) : ObjectDTO where
  name := name
  typeId := 1
  lastTransaction := 12
  updateCount := 21
  dateCreated := 21
  dbIdUpdated := 32
  versionInfo := 3
  timeUpdated := "45"
  mem := [0, 0, 0]

/-- One accented letter in the name of `main`'s object is enough. -/
theorem accented_name_overflows :
    (mainObject "caf\u00e9").size < 2 ^ 31 ∧
      (mainObject "caf\u00e9").toBytes = .error .bufferOverflow ∧
      ∀ malformed, ¬ RoundTrips malformed (mainObject "caf\u00e9") := by
  have hfails : (mainObject "caf\u00e9").toBytes = .error .bufferOverflow := by decide
  refine ⟨by decide, hfails, ?_⟩
  rintro malformed ⟨bs, hto, -⟩
  rw [hfails] at hto
  cases hto

/-- `main`'s own object round trips. -/
example : isAscii (mainObject "sdf").name = true ∧ (mainObject "sdf").toBytes.isOk = true := by
  decide

end ObjectDTO

end AuroraSizing.Cache

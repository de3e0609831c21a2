import AuroraSizing.Wire.Messages

/-!
# A row of the objects table on its way to the client

`get_security_async` copies a row into the server's `Security`, `encode` copies
that into the response, and the client's `decode` copies the response into a
`Security` of its own. Every copy is a `memcpy` of a fixed width. Two things on
the way are memory the code does not own: the blob pointer of the server's
`Security` points into a vector that is gone when `encode` runs, and the client's
`Security` is new memory of which `decode` fills only what the wire has.
-/

namespace AuroraSizing.Wire

open Foundation.Bytes

/-- The columns of a row as `ozo::rows_of` delivers them. -/
structure Columns where
  name : Bytes
  typeId : BitVec 32
  lastTransaction : BitVec 64
  updateCount : BitVec 64
  dateCreated : BitVec 32
  dbIdUpdated : BitVec 32
  versionInfo : BitVec 32
  mem : Bytes

/-- A row whose name is non-empty, has no NUL and stays within the client's window; name and
mem fit the response buffer. -/
structure ObjectsRow extends Columns where
  name_pos : 0 < name.length
  name_lt : name.length < SEC_NAME_SIZE
  name_nul : 0 ∉ name
  fits : 31 + name.length + mem.length ≤ 32768

/-- Memory at the moment a pointer into it is read. -/
abbrev Memory := ℕ → UInt8

def Memory.read (memory : Memory) (addr size : ℕ) : Bytes :=
  (List.range size).map fun i => memory (addr + i)

@[simp] theorem Memory.length_read (memory : Memory) (addr size : ℕ) :
    (memory.read addr size).length = size := by
  simp [Memory.read]

/-- `server/protocol/messages/security.h` -/
structure Security where
  name : Bytes
  type : BitVec 32
  lastTransactionId : BitVec 32
  updateCount : BitVec 32
  timeUpdated : BitVec 32
  dateCreated : BitVec 16
  dbIDUpdated : BitVec 16
  versionInfo : BitVec 16
  blobSize : BitVec 32
  blob : ℕ
deriving DecidableEq, Repr

/-- The callback of `Repository::get_security_async`; `data` is where the local
vector `blob` keeps its bytes. -/
def Repository.getSecurityAsync (data : ℕ) (row : Columns) : Security where
  name := row.name
  type := row.typeId
  lastTransactionId := row.lastTransaction.setWidth 32
  timeUpdated := 10001
  updateCount := row.updateCount.setWidth 32
  dateCreated := row.dateCreated.setWidth 16
  dbIDUpdated := row.dbIdUpdated.setWidth 16
  versionInfo := row.versionInfo.setWidth 16
  blobSize := BitVec.ofNat 32 row.mem.length
  blob := data

/-! ## The response -/

def RESPONSE_FIELD_SIZE : ℕ := 25

structure GetByNameResponse where
  size : ℕ
  status : BitVec 16
  errorType : BitVec 16
  sec : Option Security

/-- The constructor call in `SrvMsgGetByName::process`. -/
def GetByNameResponse.of : Option Security → GetByNameResponse
  | some sec => ⟨4 + 2 + (sec.name.length + RESPONSE_FIELD_SIZE), 1, 0, some sec⟩
  | none => ⟨4 + 2 + 2, 0, 0, none⟩

/-- The bytes `encode` has the connection send. -/
def SrvMsgGetByName.encode (memory : Memory) (response : GetByNameResponse) : Bytes :=
  match response.sec with
  | some sec =>
      let s := response.size + sec.blobSize.toNat
      le 4 s ++ (le 2 response.status.toNat ++ (sec.name ++ 0 :: (le 2 sec.type.toNat ++
        (le 4 sec.lastTransactionId.toNat ++ (le 4 sec.timeUpdated.toNat ++
        (le 4 sec.updateCount.toNat ++ (le 2 sec.dateCreated.toNat ++
        (le 2 sec.dbIDUpdated.toNat ++ (le 2 sec.versionInfo.toNat ++
        (le 4 sec.blobSize.toNat ++ memory.read sec.blob sec.blobSize.toNat))))))))))
  | none => le 4 response.size ++ (le 2 response.status.toNat ++ le 2 response.errorType.toNat)

/-! ## The client -/

/-- `client/messages/security.h`; the client owns its blob. -/
structure ClientSecurity where
  name : Bytes
  type : BitVec 32
  lastTransactionId : BitVec 32
  updateCount : BitVec 32
  timeUpdated : BitVec 32
  dateCreated : BitVec 16
  dbIDUpdated : BitVec 16
  versionInfo : BitVec 16
  blobSize : BitVec 32
  blob : Bytes
deriving DecidableEq, Repr

/-- The `else` branch of `GetByNameResponse::decode`; only the two low bytes of the type that
`fresh` holds are written. -/
def ClientSecurity.decode (fresh : ClientSecurity) (data : Bytes) :
    Option (ClientSecurity × Bytes) := do
  let (name, data) ← cString SEC_NAME_SIZE data
  let (type, data) ← readN 2 data
  let (lastTransactionId, data) ← readN 4 data
  let (timeUpdated, data) ← readN 4 data
  let (updateCount, data) ← readN 4 data
  let (dateCreated, data) ← readN 2 data
  let (dbIDUpdated, data) ← readN 2 data
  let (versionInfo, data) ← readN 2 data
  let (blobSize, data) ← readN 4 data
  let (blob, data) ← readN (ofLe blobSize) data
  return ({
    name := name
    type := leBits 32 (type ++ (le 4 fresh.type.toNat).drop 2)
    lastTransactionId := leBits 32 lastTransactionId
    updateCount := leBits 32 updateCount
    timeUpdated := leBits 32 timeUpdated
    dateCreated := leBits 16 dateCreated
    dbIDUpdated := leBits 16 dbIDUpdated
    versionInfo := leBits 16 versionInfo
    blobSize := leBits 32 blobSize
    blob := blob }, data)

/-- `GetByNameResponse::decode` into what `new Security` finds in its memory. -/
def GetByNameResponse.decode (fresh : ClientSecurity) (data : Bytes) : Option ClientSecurity := do
  let (status, data) ← readN 2 data
  if leBits 16 status = 0 then return fresh
  let (sec, _) ← ClientSecurity.decode fresh data
  return sec

/-- `Client::getSecurity`, from the response on the socket. -/
def Client.getSecurity (fresh : ClientSecurity) (socket : Bytes) : Option ClientSecurity := do
  let (responseSize, socket) ← readN 4 socket
  let (resBuf, _) ← readN (ofLe responseSize - 4) socket
  GetByNameResponse.decode fresh resBuf

/-- The memory around one request: where the local vector's bytes are, what is there
when `encode` runs, and what the client's `new Security` finds. -/
structure Environment where
  data : ℕ
  atEncode : Memory
  fresh : ClientSecurity

/-- A row from the table to the client. -/
def getByName (env : Environment) (row : ObjectsRow) : Option ClientSecurity :=
  Client.getSecurity env.fresh
    (SrvMsgGetByName.encode env.atEncode
      (GetByNameResponse.of (some (Repository.getSecurityAsync env.data row.toColumns))))

/-- The client's `Security` has the row's fields. -/
structure SameFields (row : ObjectsRow) (sec : ClientSecurity) : Prop where
  name : sec.name = row.name
  typeId : sec.type.toInt = row.typeId.toInt
  lastTransaction : sec.lastTransactionId.toInt = row.lastTransaction.toInt
  updateCount : sec.updateCount.toInt = row.updateCount.toInt
  dateCreated : sec.dateCreated.toInt = row.dateCreated.toInt
  dbIdUpdated : sec.dbIDUpdated.toInt = row.dbIdUpdated.toInt
  versionInfo : sec.versionInfo.toInt = row.versionInfo.toInt
  mem : sec.blob = row.mem

def Lossless (env : Environment) (row : ObjectsRow) : Prop :=
  ∃ sec, getByName env row = some sec ∧ SameFields row sec

/-! ## What arrives -/

/-- What `encode` puts behind the status. -/
def securityBody (memory : Memory) (sec : Security) : Bytes :=
  sec.name ++ 0 :: (le 2 sec.type.toNat ++ (le 4 sec.lastTransactionId.toNat ++
    (le 4 sec.timeUpdated.toNat ++ (le 4 sec.updateCount.toNat ++ (le 2 sec.dateCreated.toNat ++
    (le 2 sec.dbIDUpdated.toNat ++ (le 2 sec.versionInfo.toNat ++ (le 4 sec.blobSize.toNat ++
    memory.read sec.blob sec.blobSize.toNat))))))))

/-- The `Security` the client comes to. -/
def Security.toClient (memory : Memory) (sec : Security) (fresh : ClientSecurity) :
    ClientSecurity where
  name := sec.name
  type := leBits 32 (le 2 sec.type.toNat ++ (le 4 fresh.type.toNat).drop 2)
  lastTransactionId := sec.lastTransactionId
  updateCount := sec.updateCount
  timeUpdated := sec.timeUpdated
  dateCreated := sec.dateCreated
  dbIDUpdated := sec.dbIDUpdated
  versionInfo := sec.versionInfo
  blobSize := sec.blobSize
  blob := memory.read sec.blob sec.blobSize.toNat

theorem decode_securityBody (memory : Memory) (fresh : ClientSecurity) {sec : Security}
    (hlt : sec.name.length < SEC_NAME_SIZE) (hnul : 0 ∉ sec.name) :
    ClientSecurity.decode fresh (securityBody memory sec) =
      some (sec.toClient memory fresh, []) := by
  have hblob : ofLe (le 4 sec.blobSize.toNat) = sec.blobSize.toNat := by
    rw [ofLe_le]
    exact Nat.mod_eq_of_lt sec.blobSize.isLt
  unfold securityBody ClientSecurity.decode
  refine Option.bind_eq_some_iff.mpr ⟨_, cString_append hlt hnul _, ?_⟩
  refine Option.bind_eq_some_iff.mpr ⟨_, readN_append (length_le 2 _) _, ?_⟩
  -- lastTransactionId, timeUpdated and updateCount
  iterate 3 refine Option.bind_eq_some_iff.mpr ⟨_, readN_append (length_le 4 _) _, ?_⟩
  -- dateCreated, dbIDUpdated and versionInfo
  iterate 3 refine Option.bind_eq_some_iff.mpr ⟨_, readN_append (length_le 2 _) _, ?_⟩
  refine Option.bind_eq_some_iff.mpr ⟨_, readN_append (length_le 4 _) _, ?_⟩
  refine Option.bind_eq_some_iff.mpr ⟨_, readN_all (by rw [hblob, Memory.length_read]), ?_⟩
  simp only [leBits_le (show 32 = 8 * 4 by rfl), leBits_le (show 16 = 8 * 2 by rfl),
    BitVec.setWidth_eq]
  rfl

theorem encode_security (memory : Memory) (sec : Security) :
    SrvMsgGetByName.encode memory (.of (some sec)) =
      le 4 (GetByNameResponse.size (.of (some sec)) + sec.blobSize.toNat) ++
        (le 2 (1 : BitVec 16).toNat ++ securityBody memory sec) := rfl

theorem length_securityBody (memory : Memory) (sec : Security) :
    (securityBody memory sec).length = 25 + sec.name.length + sec.blobSize.toNat := by
  simp only [securityBody, List.length_append, List.length_cons, length_le, Memory.length_read]
  omega

theorem toNat_blobSize (row : ObjectsRow) :
    (BitVec.ofNat 32 row.mem.length).toNat = row.mem.length := by
  have hfits := row.fits
  rw [BitVec.toNat_ofNat]
  omega

/-- What `encode` puts behind the length of the response. -/
def responseBody (env : Environment) (row : ObjectsRow) : Bytes :=
  le 2 1 ++ (row.name ++ 0 :: (le 2 row.typeId.toNat ++
    (le 4 (row.lastTransaction.setWidth 32).toNat ++ (le 4 10001 ++
    (le 4 (row.updateCount.setWidth 32).toNat ++ (le 2 (row.dateCreated.setWidth 16).toNat ++
    (le 2 (row.dbIdUpdated.setWidth 16).toNat ++ (le 2 (row.versionInfo.setWidth 16).toNat ++
    (le 4 row.mem.length ++ env.atEncode.read env.data row.mem.length)))))))))

/-- The server's copy of the row. -/
theorem responseBody_eq (env : Environment) (row : ObjectsRow) :
    responseBody env row =
      le 2 1 ++ securityBody env.atEncode (Repository.getSecurityAsync env.data row.toColumns) := by
  simp only [responseBody, securityBody, Repository.getSecurityAsync, toNat_blobSize]
  rfl

theorem length_responseBody (env : Environment) (row : ObjectsRow) :
    (responseBody env row).length = 27 + row.name.length + row.mem.length := by
  set sec := Repository.getSecurityAsync env.data row.toColumns with hsec
  have hblob : sec.blobSize.toNat = row.mem.length := toNat_blobSize row
  have hname : sec.name = row.name := rfl
  rw [responseBody_eq, List.length_append, length_le, ← hsec, length_securityBody, hblob, hname]
  omega

theorem encode_eq (env : Environment) (row : ObjectsRow) :
    SrvMsgGetByName.encode env.atEncode
        (GetByNameResponse.of (some (Repository.getSecurityAsync env.data row.toColumns))) =
      le 4 (31 + row.name.length + row.mem.length) ++ responseBody env row := by
  set sec := Repository.getSecurityAsync env.data row.toColumns with hsec
  have hblob : sec.blobSize.toNat = row.mem.length := toNat_blobSize row
  have hsize : GetByNameResponse.size (.of (some sec)) + sec.blobSize.toNat =
      31 + row.name.length + row.mem.length := by
    show 4 + 2 + (row.name.length + RESPONSE_FIELD_SIZE) + _ = _
    rw [hblob, RESPONSE_FIELD_SIZE]
    omega
  rw [encode_security, hsize, responseBody_eq]
  rfl

/-- Every field of the row, narrowed to its width on the wire. -/
theorem getByName_eq (env : Environment) (row : ObjectsRow) :
    getByName env row = some {
      name := row.name
      type := leBits 32 (le 2 row.typeId.toNat ++ (le 4 env.fresh.type.toNat).drop 2)
      lastTransactionId := row.lastTransaction.setWidth 32
      updateCount := row.updateCount.setWidth 32
      timeUpdated := 10001
      dateCreated := row.dateCreated.setWidth 16
      dbIDUpdated := row.dbIdUpdated.setWidth 16
      versionInfo := row.versionInfo.setWidth 16
      blobSize := BitVec.ofNat 32 row.mem.length
      blob := env.atEncode.read env.data row.mem.length } := by
  have hfits := row.fits
  have hsize : ofLe (le 4 (31 + row.name.length + row.mem.length)) - 4 =
      (responseBody env row).length := by
    rw [ofLe_le, length_responseBody]
    omega
  have hsocket : Client.getSecurity env.fresh
      (le 4 (31 + row.name.length + row.mem.length) ++ responseBody env row) =
        GetByNameResponse.decode env.fresh (responseBody env row) := by
    simp only [Client.getSecurity, readN_append (length_le 4 _), hsize, readN_all rfl,
      Option.bind_eq_bind, Option.bind_some]
  have hstatus : ¬ leBits 16 (le 2 1) = 0 := by decide
  have hsec : ClientSecurity.decode env.fresh
      (securityBody env.atEncode (Repository.getSecurityAsync env.data row.toColumns)) = some _ :=
    decode_securityBody env.atEncode env.fresh row.name_lt row.name_nul
  rw [getByName, encode_eq, hsocket, responseBody_eq, GetByNameResponse.decode]
  refine Option.bind_eq_some_iff.mpr ⟨_, readN_append (length_le 2 1) _, ?_⟩
  simp only [if_neg hstatus]
  refine Option.bind_eq_some_iff.mpr ⟨_, hsec, ?_⟩
  simp only [Security.toClient, Repository.getSecurityAsync, toNat_blobSize]
  rfl

/-! ## Which rows survive -/

/-- The bytes of a word above its low two. -/
def upper (v : BitVec 32) : ℕ := v.toNat / 2 ^ 16

/-- The two bytes from the wire under the two that were there. -/
theorem type_eq_iff (v old : BitVec 32) :
    leBits 32 (le 2 v.toNat ++ (le 4 old.toNat).drop 2) = v ↔ upper v = upper old := by
  have hv := v.isLt
  have hold := old.isLt
  have hof : ofLe (le 2 v.toNat ++ (le 4 old.toNat).drop 2) =
      v.toNat % 2 ^ 16 + 2 ^ 16 * (old.toNat / 2 ^ 16) := by
    rw [ofLe_append, drop_le, ofLe_le, ofLe_le, length_le]
    omega
  rw [← BitVec.toNat_inj, leBits, BitVec.toNat_ofNat, hof, upper, upper]
  omega

/-- A signed `n`-bit field has room for the value. -/
def Fits (n : ℕ) {w : ℕ} (v : BitVec w) : Prop := -2 ^ (n - 1) ≤ v.toInt ∧ v.toInt < 2 ^ (n - 1)

instance (n : ℕ) {w : ℕ} (v : BitVec w) : Decidable (Fits n v) := instDecidableAnd

/-- **A row reaches the client unchanged exactly when** its long fields fit an `int`
and its other counters a `short`, the upper half of its type is what the client's
new `Security` happened to hold, and its mem is still where the freed vector was. -/
theorem lossless_iff (env : Environment) (row : ObjectsRow) :
    Lossless env row ↔
      Fits 32 row.lastTransaction ∧ Fits 32 row.updateCount ∧
      Fits 16 row.dateCreated ∧ Fits 16 row.dbIdUpdated ∧ Fits 16 row.versionInfo ∧
      upper row.typeId = upper env.fresh.type ∧
      env.atEncode.read env.data row.mem.length = row.mem := by
  unfold Lossless Fits
  rw [getByName_eq, ← toInt_setWidth_eq_iff (by decide) (by decide) row.lastTransaction,
    ← toInt_setWidth_eq_iff (by decide) (by decide) row.updateCount,
    ← toInt_setWidth_eq_iff (by decide) (by decide) row.dateCreated,
    ← toInt_setWidth_eq_iff (by decide) (by decide) row.dbIdUpdated,
    ← toInt_setWidth_eq_iff (by decide) (by decide) row.versionInfo, ← type_eq_iff]
  -- field by field: what the wire kept against what the row held
  constructor
  · rintro ⟨sec, hsec, hsame⟩
    simp only [Option.some.injEq] at hsec
    subst hsec
    exact ⟨hsame.lastTransaction, hsame.updateCount, hsame.dateCreated, hsame.dbIdUpdated,
      hsame.versionInfo, BitVec.toInt_inj.mp hsame.typeId, hsame.mem⟩
  · rintro ⟨hlast, hcount, hdate, hdb, hversion, htype, hmem⟩
    exact ⟨_, rfl, ⟨rfl, congrArg BitVec.toInt htype, hlast, hcount, hdate, hdb, hversion, hmem⟩⟩

/-! ## A type above 65535 -/

def sampleRow : ObjectsRow where
  name := [65]
  typeId := 65537
  lastTransaction := 1
  updateCount := 1
  dateCreated := 1
  dbIdUpdated := 1
  versionInfo := 1
  mem := [7]
  name_pos := by decide
  name_lt := by decide
  name_nul := by decide
  fits := by decide

/-- New memory is zero and the vector's bytes are not reused yet. -/
def sampleEnvironment : Environment where
  data := 0
  atEncode := fun _ => 7
  fresh := ⟨[], 0, 0, 0, 0, 0, 0, 0, 0, []⟩

/-- The client takes the row's type for 1. -/
theorem wide_type_truncated :
    (getByName sampleEnvironment sampleRow).map ClientSecurity.type = some 1 ∧
      ¬ Lossless sampleEnvironment sampleRow := by
  have htype : (getByName sampleEnvironment sampleRow).map ClientSecurity.type = some 1 := by
    decide
  refine ⟨htype, ?_⟩
  rintro ⟨sec, hsec, hsame⟩
  rw [hsec, Option.map_some, Option.some.injEq] at htype
  have htypeId := hsame.typeId
  rw [htype] at htypeId
  revert htypeId
  decide

end AuroraSizing.Wire

import AuroraSizing.Foundation.Heaviest
import AuroraSizing.Lookup.Agreement
import AuroraSizing.Wire.Responses

/-!
# Responses and the connection's buffer

`Connection::write` has the message encode into `buf`, which has room for `BUFFER_SIZE`
bytes. What is encoded comes from the table: a name and a mem of any length, or up to
`count` names of any length. No length is compared with the buffer. `responses_fit_iff` says
for which tables and requests all that may be encoded fits.
-/

namespace AuroraSizing.Wire

open Foundation.Bytes Foundation.Heaviest Foundation.KeyedRows Foundation.Utf8 Lookup

/-! ## From the table to the buffer -/

/-- A table as it is stored: a field is shorter than 1 GB. -/
structure StoredTable extends ObjectsTable where
  name_lt : ∀ r ∈ rows, (encode r.name).length < 2 ^ 30
  mem_lt : ∀ r ∈ rows, r.mem.length < 2 ^ 30

/-- The columns of a row of the table, its name in bytes. -/
def columnsOf (row : ObjectRow) : Columns where
  name := encode row.name
  typeId := row.typeId
  lastTransaction := row.lastTransaction
  updateCount := row.updateCount
  dateCreated := row.dateCreated
  dbIdUpdated := row.dbIdUpdated
  versionInfo := row.versionInfo
  mem := row.mem

/-- The callback of `Repository::get_security_async` on a row of the table. -/
def Repository.toSecurity (data : ℕ) (row : ObjectRow) : Security :=
  Repository.getSecurityAsync data (columnsOf row)

/-- What `write` may have encoded in answer to a request. A name or a prefix that is no text
of the database has its query fail, and nothing is written. -/
inductive Encodes (col : Collation) (data : ℕ) (memory : Memory) (table : StoredTable) :
    Request → Bytes → Prop where
  | attach (userName appName : Bytes) (version revision : BitVec 16) :
      Encodes col data memory table (.attach userName appName version revision)
        (SrvAttach.encode SrvAttach.response)
  | getByName (name : String) :
      Encodes col data memory table (.getByName (encode name))
        (SrvMsgGetByName.encode memory (.of ((lookup ObjectRow.nameLower table.rows name).map
          (Repository.toSecurity data))))
  | nameLookup (type count : BitVec 16) (namePrefix : String) {names : List String} :
      Answers col table.rows (Repository.lookupAsync namePrefix count) names →
      Encodes col data memory table (.nameLookup type count (encode namePrefix))
        (SRVMsgNameLookup.encode (.of (names.map encode)))

/-- The bytes a name takes in a response. -/
def written (r : ObjectRow) : ℕ := (encode r.name).length + 1

/-- The rows a name lookup chooses from. -/
def matching (col : Collation) (table : StoredTable) : List ObjectRow :=
  table.rows.filter fun r => col.le "$1" r.nameLower

/-- The row under the name has no more than the buffer takes beside the other fields; the
longest names a lookup may choose fit together. -/
def FitsBuffer (col : Collation) (table : StoredTable) : Request → Prop
  | .attach _ _ _ _ => True
  | .getByName securityName => ∀ r ∈ table.rows, encode r.nameLower = securityName →
      (encode r.name).length + r.mem.length ≤ 32737
  | .nameLookup _ count namePrefix => (∃ s, encode s = namePrefix) → 0 ≤ count.toInt →
      ((heaviest written count.toInt.toNat (matching col table)).map written).sum ≤ 32762

/-! ## Lengths -/

theorem length_notFound (memory : Memory) :
    (SrvMsgGetByName.encode memory (.of none)).length = 8 := by
  simp [SrvMsgGetByName.encode, GetByNameResponse.of]

theorem length_encode_security (memory : Memory) (sec : Security) :
    (SrvMsgGetByName.encode memory (.of (some sec))).length =
      31 + sec.name.length + sec.blobSize.toNat := by
  rw [encode_security, List.length_append, List.length_append, length_le, length_le,
    length_securityBody]
  omega

theorem toNat_toSecurity_blobSize {table : StoredTable} {r : ObjectRow} (hr : r ∈ table.rows)
    (data : ℕ) : (Repository.toSecurity data r).blobSize.toNat = r.mem.length := by
  have hmem := table.mem_lt r hr
  show (BitVec.ofNat 32 r.mem.length).toNat = _
  rw [BitVec.toNat_ofNat]
  omega

theorem length_encode_names (rows : List ObjectRow) (n : ℕ) :
    (SRVMsgNameLookup.encode (.of (((rows.take n).map ObjectRow.name).map encode))).length =
      6 + ((rows.take n).map written).sum := by
  rw [SRVMsgNameLookup.length_encode]
  simp only [NameLookupResponse.size, NameLookupResponse.of, List.map_map]
  rfl

/-! ## What fits -/

variable {col : Collation} {data : ℕ} {memory : Memory} {table : StoredTable}

theorem length_getByName {r : ObjectRow} (hr : r ∈ table.rows) :
    (SrvMsgGetByName.encode memory (.of ((lookup ObjectRow.nameLower table.rows r.nameLower).map
      (Repository.toSecurity data)))).length =
        31 + (encode r.name).length + r.mem.length := by
  have hlookup := (lookup_eq_some table.objectLowerName).mpr ⟨hr, rfl⟩
  rw [hlookup, Option.map_some, length_encode_security, toNat_toSecurity_blobSize hr]
  rfl

theorem getByName_fits_iff (securityName : Bytes) :
    (∀ bytes, Encodes col data memory table (.getByName securityName) bytes →
        bytes.length ≤ BUFFER_SIZE) ↔ FitsBuffer col table (.getByName securityName) := by
  have hbuf : BUFFER_SIZE = 32768 := rfl
  constructor
  · rintro h r hr rfl
    have hfits := h _ (.getByName r.nameLower)
    rw [length_getByName hr] at hfits
    omega
  · rintro h bytes ⟨⟩
    rename_i name
    cases hlookup : lookup ObjectRow.nameLower table.rows name with
    | none =>
        rw [Option.map_none, length_notFound]
        decide
    | some r =>
        obtain ⟨hr, rfl⟩ := (lookup_eq_some table.objectLowerName).mp hlookup
        have hfits := h r hr rfl
        rw [← hlookup, length_getByName hr]
        omega

theorem nameLookup_fits_iff (type count : BitVec 16) (namePrefix : Bytes) :
    (∀ bytes, Encodes col data memory table (.nameLookup type count namePrefix) bytes →
        bytes.length ≤ BUFFER_SIZE) ↔
      FitsBuffer col table (.nameLookup type count namePrefix) := by
  have hbuf : BUFFER_SIZE = 32768 := rfl
  constructor
  · rintro h ⟨s, rfl⟩ hcount
    rw [← bounds_all_iff]
    intro found hperm
    have hanswers : Answers col table.rows (Repository.lookupAsync s count)
        ((found.take count.toInt.toNat).map ObjectRow.name) :=
      answers_lookupAsync_iff.mpr ⟨hcount, found, hperm, rfl⟩
    have hfits := h _ (.nameLookup type count s hanswers)
    rw [length_encode_names] at hfits
    omega
  · rintro h bytes ⟨⟩
    rename_i s names hanswers
    obtain ⟨hcount, found, hperm, rfl⟩ := answers_lookupAsync_iff.mp hanswers
    have hfits := (bounds_all_iff _ _ _).mpr (h ⟨s, rfl⟩ hcount) found hperm
    rw [length_encode_names]
    omega

/-- **All that may be written for a request fits the buffer exactly when** the row it names
has at most 32737 bytes of name and mem, or the longest names it may choose take at most
32762 with their NULs. -/
theorem responses_fit_iff (col : Collation) (data : ℕ) (memory : Memory) (table : StoredTable)
    (request : Request) :
    (∀ bytes, Encodes col data memory table request bytes → bytes.length ≤ BUFFER_SIZE) ↔
      FitsBuffer col table request := by
  cases request with
  | attach userName appName version revision =>
      refine ⟨fun _ => trivial, ?_⟩
      rintro - bytes ⟨⟩
      decide
  | getByName securityName => exact getByName_fits_iff securityName
  | nameLookup type count namePrefix => exact nameLookup_fits_iff type count namePrefix

/-! ## A mem of 32 KiB -/

/-- One object as large as the buffer. -/
def largeRow : ObjectRow where
  name := "A"
  typeId := 1
  lastTransaction := 1
  timeUpdated := ⟨0⟩
  updateCount := 1
  dateCreated := 1
  dbIdUpdated := 1
  versionInfo := 1
  sdbDiskMem := []
  mem := List.replicate 32768 0
  nameLower := "a"

def largeTable : StoredTable where
  rows := [largeRow]
  objectTypeidName := List.nodup_singleton _
  objectLowerName := List.nodup_singleton _
  objectName := List.nodup_singleton _
  name_lt := by
    intro r hr
    rw [List.mem_singleton.mp hr]
    decide
  mem_lt := by
    intro r hr
    rw [List.mem_singleton.mp hr, largeRow, List.length_replicate]
    decide

/-- The response to its get-by-name runs 32 bytes over the buffer. -/
theorem large_mem_overflows :
    ∃ bytes, Encodes .codePoints 0 (fun _ => 0) largeTable (.getByName (encode "a")) bytes ∧
      bytes.length = 32800 ∧ ¬ bytes.length ≤ BUFFER_SIZE := by
  have hr : largeRow ∈ largeTable.rows := List.mem_cons_self
  have hlength : (SrvMsgGetByName.encode (fun _ => 0) (.of
      ((lookup ObjectRow.nameLower largeTable.rows "a").map (Repository.toSecurity 0)))).length =
        31 + (encode largeRow.name).length + largeRow.mem.length := length_getByName hr
  have hname : (encode largeRow.name).length = 1 := by decide
  have hmem : largeRow.mem.length = 32768 := List.length_replicate
  rw [hname, hmem] at hlength
  refine ⟨_, .getByName "a", hlength, ?_⟩
  rw [hlength]
  decide

end AuroraSizing.Wire

import AuroraSizing.Wire.Capacity

/-!
# One object by name, in both middlewares

`get_security_async` and `getFullObject` run the same query on the same column. The Java
method folds the name it binds, the C++ one binds it as the client sent it, and the column
holds folded names only. `middlewares_agree_iff` says for which names that is the same.
-/

namespace AuroraSizing.Lookup

open Foundation.Bytes Foundation.KeyedRows Foundation.SqlText Foundation.Utf8 Wire

/-! ## The two queries -/

/-- `select … from objects where nameLower …`; both select every column they read. -/
structure ByNameQuery where
  comparison : Comparison
  bound : Operand
deriving DecidableEq, Repr

def fromObjects : List Token := [.word "from", .word "objects", .word "where", .word "namelower"]

def ByNameQuery.parse (tokens : List Token) : Option ByNameQuery :=
  let tail := tokens.dropWhile (· ≠ .word "from")
  if tokens.head? = some (.word "select") ∧ tail.take 4 = fromObjects then
    match tail.drop 4 with
    | [.symbol op, bound] => do return ⟨← Comparison.ofOp op, ← Operand.ofToken bound⟩
    | _ => none
  else none

/-- The rows the database may answer, in any order. -/
def Finds (col : Collation) (rows : List ObjectRow) (s : Statement) (found : List ObjectRow) :
    Prop :=
  ∃ q bound, (lex s.text).bind ByNameQuery.parse = some q ∧
    q.bound.value s.values = some (.text bound) ∧
    found.Perm (rows.filter fun r => q.comparison.holds col r.nameLower bound)

/-- The query of `Repository::get_security_async`. -/
def Repository.getSecurity (name : String) : Statement :=
  render [.sql ("select name, typeId, lastTransaction, updateCount, dateCreated, dbIdUpdated, " ++
      "versionInfo, mem from objects where nameLower = "),
    .value (.text name), .sql ""]

def GET_FULL_OBJECT : String :=
  "select name, typeId, lastTransaction, timeUpdated, updateCount, dateCreated, dbIdUpdated, " ++
    "versionInfo, mem from objects where nameLower = ?"

/-- The query of `ObjectRepository.getFullObject`. -/
def ObjectRepository.getFullObject (jdk : Jdk) (secKey : String) : Statement :=
  ⟨GET_FULL_OBJECT.toList, [.text (jdk.toLowerCase secKey)]⟩

theorem parse_getSecurity (name : String) :
    (lex (Repository.getSecurity name).text).bind ByNameQuery.parse = some ⟨.eq, .param 1⟩ := by
  have htext : (Repository.getSecurity name).text = (Repository.getSecurity "").text := by
    simp only [Repository.getSecurity, render, renderFrom]
  rw [htext]
  decide +kernel

theorem parse_getFullObject (jdk : Jdk) (secKey : String) :
    (lex (ObjectRepository.getFullObject jdk secKey).text).bind ByNameQuery.parse =
      some ⟨.eq, .param 1⟩ := by
  simp only [ObjectRepository.getFullObject]
  decide +kernel

variable {col : Collation}

/-- A query of one key finds the row under it, if there is one. -/
theorem finds_key_iff {rows : List ObjectRow} (hunique : Unique ObjectRow.nameLower rows)
    {s : Statement} {key : String}
    (hparse : (lex s.text).bind ByNameQuery.parse = some ⟨.eq, .param 1⟩)
    (hvalues : s.values = [.text key]) {found : List ObjectRow} :
    Finds col rows s found ↔ found = (lookup ObjectRow.nameLower rows key).toList := by
  have hfilter := filter_key_eq hunique key
  constructor
  · rintro ⟨q, bound, hq, hbound, hperm⟩
    rw [hparse, Option.some.injEq] at hq
    subst hq
    obtain rfl : key = bound := by simpa [Operand.value, hvalues] using hbound
    have hperm : found.Perm (rows.filter fun r => r.nameLower = key) := hperm
    rw [hfilter] at hperm
    cases hlookup : lookup ObjectRow.nameLower rows key with
    | none =>
        rw [hlookup] at hperm
        exact hperm.eq_nil
    | some r =>
        rw [hlookup] at hperm
        exact List.perm_singleton.mp hperm
  · rintro rfl
    refine ⟨⟨.eq, .param 1⟩, key, hparse, by simp [Operand.value, hvalues], ?_⟩
    rw [← hfilter]
    exact List.Perm.refl _

/-! ## The two answers -/

/-- A name the server's window can delimit, as the client sends it. -/
structure SecurityName where
  text : String
  lt : (encode text).length < SEC_NAME_SIZE
  nul : 0 ∉ encode text

/-- `SrvMsgGetByName::decode` of what is in the buffer, and the response `process` makes of
the front row. -/
def SrvMsgGetByName.Responds (col : Collation) (data : ℕ) (table : ObjectsTable)
    (payload : Bytes) (response : GetByNameResponse) : Prop :=
  ∃ name found, Wire.SrvMsgGetByName.decode payload = some (.getByName (encode name)) ∧
    Finds col table.rows (Repository.getSecurity name) found ∧
    response = .of (found.head?.map (Wire.Repository.toSecurity data))

/-- `rs.next()` on what `getFullObject` selects. -/
def ObjectRepository.Reads (col : Collation) (jdk : Jdk) (table : ObjectsTable) (secKey : String)
    (objectDTO : Option Cache.ObjectDTO) : Prop :=
  ∃ found, Finds col table.rows (ObjectRepository.getFullObject jdk secKey) found ∧
    objectDTO = found.head?.map (ObjectRow.toDTO jdk)

variable {data : ℕ} {table : ObjectsTable}

/-- Whatever stands behind the name in the buffer, the answer is the row under the name
itself. -/
theorem responds_iff (name : SecurityName) (more : Bytes) {response : GetByNameResponse} :
    SrvMsgGetByName.Responds col data table (encode name.text ++ 0 :: more) response ↔
      response = .of ((lookup ObjectRow.nameLower table.rows name.text).map
        (Wire.Repository.toSecurity data)) := by
  have hdecode : Wire.SrvMsgGetByName.decode (encode name.text ++ 0 :: more) =
      some (.getByName (encode name.text)) := by
    simp only [Wire.SrvMsgGetByName.decode, cString_append name.lt name.nul, Option.bind_eq_bind,
      Option.bind_some]
    rfl
  have hfinds : ∀ found, Finds col table.rows (Repository.getSecurity name.text) found ↔
      found = (lookup ObjectRow.nameLower table.rows name.text).toList := fun found =>
    finds_key_iff table.objectLowerName (parse_getSecurity name.text) rfl
  constructor
  · rintro ⟨name', found, hname, hfound, rfl⟩
    rw [hdecode, Option.some.injEq, Request.getByName.injEq] at hname
    obtain rfl := encode_injective hname
    rw [(hfinds found).mp hfound, Option.head?_toList]
  · rintro rfl
    exact ⟨name.text, _, hdecode, (hfinds _).mpr rfl, by rw [Option.head?_toList]⟩

/-- The statement read back is the method: the row under the folded name. -/
theorem reads_iff (jdk : Jdk) (secKey : String) {objectDTO : Option Cache.ObjectDTO} :
    ObjectRepository.Reads col jdk table secKey objectDTO ↔
      objectDTO = AuroraSizing.ObjectRepository.getFullObject jdk table secKey := by
  have hfinds : ∀ found, Finds col table.rows (ObjectRepository.getFullObject jdk secKey) found ↔
      found = (lookup ObjectRow.nameLower table.rows (jdk.toLowerCase secKey)).toList :=
    fun found => finds_key_iff table.objectLowerName (parse_getFullObject jdk secKey) rfl
  constructor
  · rintro ⟨found, hfound, rfl⟩
    rw [(hfinds found).mp hfound, Option.head?_toList]
    rfl
  · rintro rfl
    exact ⟨_, (hfinds _).mpr rfl, by rw [Option.head?_toList]; rfl⟩

/-- The middlewares agree on the name: on every object of the table, and on there being
none. -/
structure MiddlewaresAgree (col : Collation) (data : ℕ) (jdk : Jdk) (table : ObjectsTable)
    (name : SecurityName) : Prop where
  success : ∀ more, ∀ o ∈ table.rows,
    SrvMsgGetByName.Responds col data table (encode name.text ++ 0 :: more)
        (.of (some (Wire.Repository.toSecurity data o))) ↔
      ObjectRepository.Reads col jdk table name.text (some (o.toDTO jdk))
  error : ∀ more,
    SrvMsgGetByName.Responds col data table (encode name.text ++ 0 :: more) (.of none) ↔
      ObjectRepository.Reads col jdk table name.text none

/-! ## The agreement -/

/-- A response is of one object of the table at most, whose name it carries. -/
theorem of_toSecurity_eq_iff {o : ObjectRow} {r : Option ObjectRow} (ho : o ∈ table.rows)
    (hr : ∀ s ∈ r, s ∈ table.rows) :
    GetByNameResponse.of (some (Wire.Repository.toSecurity data o)) =
        .of (r.map (Wire.Repository.toSecurity data)) ↔ r = some o := by
  cases r with
  | none => simp [GetByNameResponse.of]
  | some s =>
      constructor
      · intro h
        simp only [Option.map_some, GetByNameResponse.of, GetByNameResponse.mk.injEq,
          Option.some.injEq] at h
        have hname := congrArg Wire.Security.name h.2.2.2
        rw [table.objectName.eq (hr s rfl) ho (encode_injective hname.symm)]
      · intro h
        cases h
        rfl

theorem toDTO_eq_iff {jdk : Jdk} {o : ObjectRow} {r : Option ObjectRow} (ho : o ∈ table.rows)
    (hr : ∀ s ∈ r, s ∈ table.rows) :
    some (o.toDTO jdk) = r.map (ObjectRow.toDTO jdk) ↔ r = some o := by
  cases r with
  | none => simp
  | some s =>
      constructor
      · intro h
        simp only [Option.map_some, Option.some.injEq] at h
        have hname := congrArg Cache.ObjectDTO.name h
        rw [table.objectName.eq (hr s rfl) ho hname.symm]
      · intro h
        cases h
        rfl

theorem lookup_mem (key : String) : ∀ s ∈ lookup ObjectRow.nameLower table.rows key,
    s ∈ table.rows := fun _ hs => ((lookup_eq_some table.objectLowerName).mp hs).1

/-- Both look under one key each, and agree when they find the same. -/
theorem agree_iff_lookups (jdk : Jdk) (name : SecurityName) :
    MiddlewaresAgree col data jdk table name ↔
      lookup ObjectRow.nameLower table.rows name.text =
        lookup ObjectRow.nameLower table.rows (jdk.toLowerCase name.text) := by
  have hsuccess : ∀ more, ∀ o ∈ table.rows,
      ((SrvMsgGetByName.Responds col data table (encode name.text ++ 0 :: more)
          (.of (some (Wire.Repository.toSecurity data o))) ↔
        ObjectRepository.Reads col jdk table name.text (some (o.toDTO jdk))) ↔
      (lookup ObjectRow.nameLower table.rows name.text = some o ↔
        lookup ObjectRow.nameLower table.rows (jdk.toLowerCase name.text) = some o)) := by
    intro more o ho
    rw [responds_iff, reads_iff, of_toSecurity_eq_iff ho (lookup_mem name.text)]
    exact iff_congr Iff.rfl (toDTO_eq_iff ho (lookup_mem (jdk.toLowerCase name.text)))
  constructor
  · intro h
    cases hcpp : lookup ObjectRow.nameLower table.rows name.text with
    | some o =>
        have ho := lookup_mem name.text o hcpp
        exact (((hsuccess [] o ho).mp (h.success [] o ho)).mp hcpp).symm
    | none =>
        cases hjava : lookup ObjectRow.nameLower table.rows (jdk.toLowerCase name.text) with
        | none => rfl
        | some o =>
            have ho := lookup_mem (jdk.toLowerCase name.text) o hjava
            have hfound := ((hsuccess [] o ho).mp (h.success [] o ho)).mpr hjava
            rw [hcpp] at hfound
            cases hfound
  · intro h
    constructor
    · intro more o ho
      rw [hsuccess more o ho, h]
    · intro more
      have hnone : ∀ r : Option ObjectRow, GetByNameResponse.of none =
          .of (r.map (Wire.Repository.toSecurity data)) ↔ none = r.map (ObjectRow.toDTO jdk) := by
        intro r
        cases r with
        | none => exact ⟨fun _ => rfl, fun _ => rfl⟩
        | some s => simp [GetByNameResponse.of]
      rw [responds_iff, reads_iff, h]
      exact hnone _

/-- **The middlewares agree on a name exactly when** it is in lower case, or there is no
object under it nor under its lower case. -/
theorem middlewares_agree_iff (col : Collation) (data : ℕ) (jdk : Jdk) (table : LowerTable jdk)
    (name : SecurityName) :
    MiddlewaresAgree col data jdk table.toObjectsTable name ↔
      jdk.toLowerCase name.text = name.text ∨
        ∀ r ∈ table.rows, r.nameLower ≠ name.text ∧ r.nameLower ≠ jdk.toLowerCase name.text := by
  rw [agree_iff_lookups]
  constructor
  · intro h
    cases hcpp : lookup ObjectRow.nameLower table.rows name.text with
    | some o =>
        left
        rw [hcpp] at h
        have hname := ((lookup_eq_some table.objectLowerName).mp hcpp).2
        have hlower := ((lookup_eq_some table.objectLowerName).mp h.symm).2
        exact hlower.symm.trans hname
    | none =>
        right
        rw [hcpp] at h
        intro r hr
        exact ⟨lookup_eq_none.mp hcpp r hr, lookup_eq_none.mp h.symm r hr⟩
  · rintro (hlower | hnone)
    · rw [hlower]
    · rw [lookup_eq_none.mpr fun r hr => (hnone r hr).1,
        lookup_eq_none.mpr fun r hr => (hnone r hr).2]

/-- `Alpha` as its own row has it. -/
def alpha : SecurityName where
  text := "Alpha"
  lt := by decide
  nul := by decide

/-- The Java method finds the object under its own name, the C++ middleware answers ERROR. -/
theorem own_name_not_found :
    SrvMsgGetByName.Responds .codePoints 0 sampleTable.toObjectsTable (encode "Alpha" ++ [0])
        (.of none) ∧
      ObjectRepository.Reads .codePoints Jdk.ascii sampleTable.toObjectsTable "Alpha"
        (some ((sampleRow "Alpha").toDTO Jdk.ascii)) ∧
      ¬ MiddlewaresAgree .codePoints 0 Jdk.ascii sampleTable.toObjectsTable alpha := by
  have hcpp : lookup ObjectRow.nameLower sampleTable.rows "Alpha" = none := by decide
  have hjava : lookup ObjectRow.nameLower sampleTable.rows (Jdk.ascii.toLowerCase "Alpha") =
      some (sampleRow "Alpha") := by decide
  refine ⟨(responds_iff alpha []).mpr ?_, (reads_iff Jdk.ascii "Alpha").mpr ?_, ?_⟩
  · rw [show alpha.text = "Alpha" from rfl, hcpp]
    rfl
  · show _ = (lookup ObjectRow.nameLower sampleTable.rows _).map _
    rw [hjava]
    rfl
  · rw [agree_iff_lookups]
    show lookup ObjectRow.nameLower sampleTable.rows "Alpha" ≠
      lookup ObjectRow.nameLower sampleTable.rows (Jdk.ascii.toLowerCase "Alpha")
    rw [hcpp, hjava]
    exact fun h => by cases h

end AuroraSizing.Lookup

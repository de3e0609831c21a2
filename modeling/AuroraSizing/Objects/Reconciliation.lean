import AuroraSizing.Foundation.TextKeys
import AuroraSizing.Objects.ResultSet
import AuroraSizing.Objects.Tables
import Mathlib.Data.List.AList
import Mathlib.Data.List.Perm.Subperm

/-!
# Loading a size CSV and checking the load

`dataLoadFromCSV` makes one object for every serial of a CSV row and names it after the
row; `ReconTask2` reads back what is named after a row and compares. It walks what it
found and counts, so that nothing is missing follows from the count alone.
-/

namespace AuroraSizing.Reconciliation

open ResultSet Foundation.KeyedRows Foundation.TextKeys

/-! ## The objects of a row -/

/-- A row of the size CSV, after `Integer.parseInt`. -/
structure CsvRow where
  objClassId : JInt
  memSize : JInt
  numObjects : JInt
deriving DecidableEq, Repr

structure DBRecordMetaData where
  name : String
  typeId : JInt
  memSize : JInt
deriving DecidableEq, Repr

/-- `"%d-%d-%d-%d"` -/
def OBJ_NAME_FRMT_V2 (csvrownum : ℕ) (classId size : JInt) (serial : ℕ) : List Char :=
  decimal csvrownum ++ '-' :: (decimal classId.toInt ++ '-' :: (decimal size.toInt ++
    '-' :: decimal serial))

/-- The record of serial `j`, in the loader's loop and in the checker's. -/
def dbRecordMetaData (rowNum : ℕ) (row : CsvRow) (j : ℕ) : DBRecordMetaData where
  name := String.ofList (OBJ_NAME_FRMT_V2 rowNum row.objClassId row.memSize j)
  typeId := row.objClassId
  memSize := row.memSize

/-- `j < numObjects` -/
def serials (row : CsvRow) : List ℕ := List.range row.numObjects.toInt.toNat

/-- `objForRow` of `dataLoadFromCSV`, the list. -/
def dataLoadFromCSV.objForRow (rowNum : ℕ) (row : CsvRow) : List DBRecordMetaData :=
  (serials row).map (dbRecordMetaData rowNum row)

/-- An array of the size filled with `'a'`, for the sizes `new byte[size]` takes. -/
def getSizedByteArray (size : JInt) : Bytes := List.replicate size.toInt.toNat 97

/-- The row `InsertionTask` writes for a record. -/
def InsertionTask.insertRec (timestamp : Timestamp) (o : DBRecordMetaData) : ObjectRow where
  name := o.name
  typeId := o.typeId
  lastTransaction := 123
  timeUpdated := timestamp
  updateCount := 123
  dateCreated := 123
  dbIdUpdated := 123
  versionInfo := 123
  sdbDiskMem := getSizedByteArray 100
  mem := getSizedByteArray o.memSize
  nameLower := o.name

/-- `objForRow` of `reconFromCSV`, the map. -/
def reconFromCSV.objForRow (rowNum : ℕ) (row : CsvRow) : AList fun _ : String => DBRecordMetaData :=
  ((serials row).map (dbRecordMetaData rowNum row)).foldl (fun m o => m.insert o.name o) ∅

/-! ## The task -/

/-- What `ReconTask2` writes with `LOGGER.error`. -/
inductive LoggedError where
  | typeIdMismatch (name : String) (expected actual : JInt)
  | memSizeMismatch (name : String) (expected : JInt) (actual : ℕ)
  | lessObjectsFound (rowNum expected actual : ℕ)
  | errorInValidatingObject (e : Throwable)
deriving DecidableEq, Repr

/-- What a run leaves: the log, what it added to the counter, what it threw. -/
structure Run where
  logged : List LoggedError
  rowsComplete : ℕ
  thrown : Option Throwable
deriving DecidableEq, Repr

/-- `"%d-"` -/
def rowPrefix (rowNum : ℕ) : List Char := decimal rowNum ++ ['-']

/-- The pattern in `GET_MANY_RECORDS_SUMM`. -/
def rowPattern (rowNum : ℕ) : List Char := rowPrefix rowNum ++ ['%']

def Store.GET_MANY_RECORDS_SUMM (pattern : List Char) (table : List ObjectRow) : List ObjectRow :=
  table.filter fun r => like pattern r.nameLower.toList

/-- The body of the loop, after the getters. -/
def validate (rowMap : AList fun _ : String => DBRecordMetaData) (r : ObjectRow) :
    Except Throwable (List LoggedError) :=
  match rowMap.lookup r.name with
  | none => .error .nullPointerException
  | some expected =>
      .ok ((if r.typeId ≠ expected.typeId then
          [.typeIdMismatch r.name expected.typeId r.typeId] else []) ++
        (if (r.mem.length : ℤ) ≠ expected.memSize.toInt then
          [.memSizeMismatch r.name expected.memSize r.mem.length] else []))

/-- `while (rs.next())` with `objsFound` rows behind it: the log, and the last count or what
was raised. -/
def validateAll (fails : Failures) (rowMap : AList fun _ : String => DBRecordMetaData) :
    ℕ → List ObjectRow → List LoggedError × Except Throwable ℕ
  | objsFound, [] =>
      match fails (.next objsFound) with
      | some e => ([], .error e)
      | none => ([], .ok objsFound)
  | objsFound, r :: rows =>
      match (fails (.next objsFound)).or (fails (.get objsFound)) with
      | some e => ([], .error e)
      | none =>
          match validate rowMap r with
          | .error e => ([], .error e)
          | .ok errors =>
              let rest := validateAll fails rowMap (objsFound + 1) rows
              (errors ++ rest.1, rest.2)

/-- The end of a run in which something was raised: `catch (SQLException)`. -/
def raised (logged : List LoggedError) (e : Throwable) : Run :=
  if isSQLException e then ⟨logged ++ [.errorInValidatingObject e], 0, none⟩
  else ⟨logged, 0, some e⟩

/-- `ReconTask2.run`, on the rows its query finds. -/
def ReconTask2.run (fails : Failures) (rowNum : ℕ)
    (rowMap : AList fun _ : String => DBRecordMetaData) (found : List ObjectRow) : Run :=
  match opened fails with
  | some e => raised [] e
  | none =>
      match validateAll fails rowMap 0 found with
      | (logged, .error e) => raised logged e
      | (logged, .ok objsFound) =>
          let logged := if objsFound < rowMap.keys.length then
            logged ++ [.lessObjectsFound rowNum rowMap.keys.length objsFound] else logged
          match fails .close with
          | some e => raised logged e
          | none => ⟨logged, 1, none⟩

/-- No error is logged and the row is counted. -/
structure Run.Clean (run : Run) : Prop where
  logged : run.logged = []
  counted : run.rowsComplete = 1

/-! ## Names -/

theorem dbRecordMetaData_name_injective (rowNum : ℕ) (row : CsvRow) :
    Function.Injective fun j => (dbRecordMetaData rowNum row j).name := by
  intro i j h
  have htext := String.ofList_injective h
  unfold OBJ_NAME_FRMT_V2 at htext
  have hclass := List.cons.inj (List.append_cancel_left htext)
  have hsize := List.cons.inj (List.append_cancel_left hclass.2)
  have hserial := List.cons.inj (List.append_cancel_left hsize.2)
  exact digits_injective hserial.2

theorem objForRow_unique (rowNum : ℕ) (row : CsvRow) :
    Foundation.KeyedRows.Unique DBRecordMetaData.name
      (dataLoadFromCSV.objForRow rowNum row) := by
  unfold Foundation.KeyedRows.Unique dataLoadFromCSV.objForRow serials
  rw [List.map_map]
  exact List.nodup_range.map (dbRecordMetaData_name_injective rowNum row)

/-- The first field of a name is the row it was made for. -/
theorem rowPrefix_name_iff (rowNum rowNum' : ℕ) (row : CsvRow) (j : ℕ) :
    rowPrefix rowNum <+: (dbRecordMetaData rowNum' row j).name.toList ↔ rowNum' = rowNum := by
  unfold dbRecordMetaData rowPrefix
  rw [String.toList_ofList]
  unfold OBJ_NAME_FRMT_V2
  rw [decimal_natCast, decimal_natCast,
    field_prefix_iff (dash_notMem_digits rowNum) (dash_notMem_digits rowNum')]
  constructor
  · intro h
    exact (digits_injective h).symm
  · intro h
    rw [h]

theorem mem_rowPrefix {rowNum : ℕ} {c : Char} (h : c ∈ rowPrefix rowNum) :
    c.isDigit = true ∨ c = '-' := by
  unfold rowPrefix at h
  rw [decimal_natCast, List.mem_append, List.mem_singleton] at h
  exact h.imp_left isDigit_of_mem_digits

theorem like_rowPattern_iff (rowNum : ℕ) (s : List Char) :
    like (rowPattern rowNum) s = true ↔ rowPrefix rowNum <+: s := by
  apply like_prefix_iff
  intro c hc
  rcases mem_rowPrefix hc with hdigit | rfl
  · refine ⟨?_, ?_, ?_⟩ <;>
    · rintro rfl
      exact absurd hdigit (by decide)
  · exact ⟨by decide, by decide, by decide⟩

/-! ## The map -/

/-- `put` of every record under its name. -/
theorem foldl_insert {records : List DBRecordMetaData}
    (h : Foundation.KeyedRows.Unique DBRecordMetaData.name records) :
    let rowMap := records.foldl (fun m o => m.insert o.name o)
      (∅ : AList fun _ : String => DBRecordMetaData)
    (∀ name o, rowMap.lookup name = some o ↔ o ∈ records ∧ o.name = name) ∧
      rowMap.keys.length = records.length := by
  induction records using List.reverseRecOn with
  | nil =>
      constructor
      · intro name o
        exact iff_of_false (fun h => by cases h) (fun h => by cases h.1)
      · rfl
  | append_singleton records last ih =>
      rw [Foundation.KeyedRows.Unique, List.map_append, List.nodup_append] at h
      obtain ⟨hunique, _, hdisjoint⟩ := h
      obtain ⟨hlookup, hlength⟩ := ih hunique
      have hlast : ∀ o ∈ records, o.name ≠ last.name := fun o ho =>
        hdisjoint _ (List.mem_map_of_mem ho) _ List.mem_cons_self
      simp only [List.foldl_append, List.foldl_cons, List.foldl_nil] at hlookup hlength ⊢
      constructor
      · intro name o
        rw [List.mem_append, List.mem_singleton]
        by_cases hname : name = last.name
        · subst hname
          rw [AList.lookup_insert]
          constructor
          · intro h
            cases h
            exact ⟨Or.inr rfl, rfl⟩
          · rintro ⟨ho | rfl, heq⟩
            · exact absurd heq (hlast o ho)
            · rfl
        · rw [AList.lookup_insert_ne hname, hlookup]
          constructor
          · rintro ⟨ho, heq⟩
            exact ⟨Or.inl ho, heq⟩
          · rintro ⟨ho | rfl, heq⟩
            · exact ⟨ho, heq⟩
            · exact absurd heq.symm hname
      · have hnew : last.name ∉ (records.foldl (fun m o => m.insert o.name o)
            (∅ : AList fun _ : String => DBRecordMetaData)).keys := by
          intro hmem
          obtain ⟨o, ho⟩ := Option.isSome_iff_exists.mp (AList.lookup_isSome.mpr hmem)
          obtain ⟨homem, heq⟩ := (hlookup _ _).mp ho
          exact hlast o homem heq
        rw [AList.keys_insert, List.length_cons, List.erase_of_not_mem hnew, hlength,
          List.length_append]
        rfl

/-! ## One run -/

/-- What the loop wants of a row. -/
def Expected (rowMap : AList fun _ : String => DBRecordMetaData) (r : ObjectRow) : Prop :=
  ∃ o, rowMap.lookup r.name = some o ∧ r.typeId = o.typeId ∧
    (r.mem.length : ℤ) = o.memSize.toInt

section Run

variable {rowMap : AList fun _ : String => DBRecordMetaData}

theorem validate_eq_iff (rowMap : AList fun _ : String => DBRecordMetaData) (r : ObjectRow) :
    validate rowMap r = .ok [] ↔ Expected rowMap r := by
  unfold validate Expected
  cases rowMap.lookup r.name with
  | none =>
      apply iff_of_false
      · intro h
        cases h
      · rintro ⟨o, h, _⟩
        cases h
  | some o =>
      simp only [Except.ok.injEq, List.append_eq_nil_iff, Option.some.injEq, exists_eq_left']
      apply and_congr
      · by_cases htype : r.typeId = o.typeId <;> simp [htype]
      · by_cases hsize : (r.mem.length : ℤ) = o.memSize.toInt <;> simp [hsize]

theorem validateAll_eq_iff {objsFound n : ℕ} {rows : List ObjectRow} :
    validateAll Failures.none rowMap objsFound rows = ([], .ok n) ↔
      n = objsFound + rows.length ∧ ∀ r ∈ rows, Expected rowMap r := by
  induction rows generalizing objsFound with
  | nil => simp [validateAll, Failures.none, eq_comm]
  | cons r rows ih =>
      have hstep := validate_eq_iff rowMap r
      rw [List.forall_mem_cons, List.length_cons, ← hstep]
      have htail := @ih (objsFound + 1)
      rw [Nat.add_assoc, Nat.add_comm 1] at htail
      simp only [validateAll, Failures.none, Option.or_none]
      cases hrow : validate rowMap r with
      | error e =>
          apply iff_of_false
          · intro h
            cases (Prod.mk.inj h).2
          · rintro ⟨_, h, _⟩
            cases h
      | ok errors =>
          simp only [Prod.mk.injEq, List.append_eq_nil_iff, Except.ok.injEq]
          rw [and_assoc, ← Prod.mk.injEq, Prod.mk.eta]
          change errors = [] ∧ validateAll Failures.none rowMap (objsFound + 1) rows = _ ↔ _
          rw [htail]
          exact and_left_comm

theorem raised_rowsComplete (logged : List LoggedError) (e : Throwable) :
    (raised logged e).rowsComplete = 0 := by
  unfold raised
  split <;> rfl

theorem clean_run_iff {rowNum : ℕ} {found : List ObjectRow} :
    (ReconTask2.run Failures.none rowNum rowMap found).Clean ↔
      (∀ r ∈ found, Expected rowMap r) ∧ rowMap.keys.length ≤ found.length := by
  have hopened : opened Failures.none = none := rfl
  unfold ReconTask2.run
  rw [hopened]
  constructor
  · intro h
    cases hall : validateAll Failures.none rowMap 0 found with
    | mk logged result =>
        simp only [hall] at h
        cases result with
        | error e =>
            have hcounted := h.counted
            rw [raised_rowsComplete] at hcounted
            cases hcounted
        | ok n =>
            have hlogged := h.logged
            simp only [Failures.none] at hlogged
            by_cases hless : n < rowMap.keys.length
            · simp [hless] at hlogged
            · simp only [hless, if_false] at hlogged
              rw [hlogged] at hall
              obtain ⟨hn, hexpected⟩ := validateAll_eq_iff.mp hall
              exact ⟨hexpected, by omega⟩
  · rintro ⟨hexpected, hlength⟩
    have hall : validateAll Failures.none rowMap 0 found = ([], .ok found.length) :=
      validateAll_eq_iff.mpr ⟨(Nat.zero_add _).symm, hexpected⟩
    simp only [hall, Nat.not_lt.mpr hlength, if_false, Failures.none]
    exact ⟨rfl, rfl⟩

end Run

/-! ## Soundness and completeness -/

/-- What is compared of a row: its name, its type and its size. -/
def summary (r : ObjectRow) : String × JInt × ℤ := (r.name, r.typeId, r.mem.length)

def DBRecordMetaData.summary (o : DBRecordMetaData) : String × JInt × ℤ :=
  (o.name, o.typeId, o.memSize.toInt)

/-- The rows whose name starts with `rowNum-`. -/
def rowsNamed (rowNum : ℕ) (table : List ObjectRow) : List ObjectRow :=
  table.filter fun r => rowPrefix rowNum <+: r.name.toList

/-- Digits and the dash have no case. -/
def Caseless (c : Char) : Prop := c.isDigit = true ∨ c = '-'

/-- `toLowerCase` on characters. -/
def Jdk.lower (jdk : Jdk) (s : List Char) : List Char := (jdk.toLowerCase (String.ofList s)).toList

section Table

variable {jdk : Jdk} {table : List ObjectRow} {rowNum : ℕ} {row : CsvRow}

theorem rowPrefix_toLowerCase_iff (hlower : Lowers Caseless (Jdk.lower jdk)) (rowNum : ℕ)
    (s : String) :
    rowPrefix rowNum <+: (jdk.toLowerCase s).toList ↔ rowPrefix rowNum <+: s.toList := by
  have hplain : ∀ c ∈ rowPrefix rowNum, Caseless c := fun c hc => mem_rowPrefix hc
  have hprefix := hlower.prefix_iff hplain s.toList
  unfold Jdk.lower at hprefix
  rwa [String.ofList_toList] at hprefix

/-- The pattern on the lower names selects by the names. -/
theorem found_eq (hlower : Lowers Caseless (Jdk.lower jdk))
    (hnameLower : ∀ r ∈ table, r.nameLower = jdk.toLowerCase r.name) :
    Store.GET_MANY_RECORDS_SUMM (rowPattern rowNum) table = rowsNamed rowNum table := by
  apply List.filter_congr
  intro r hr
  rw [Bool.eq_iff_iff, like_rowPattern_iff, hnameLower r hr, decide_eq_true_iff]
  exact rowPrefix_toLowerCase_iff hlower rowNum r.name

/-- What the checker's map has is what the loader makes. -/
theorem expected_iff (r : ObjectRow) :
    Expected (reconFromCSV.objForRow rowNum row) r ↔
      summary r ∈ (dataLoadFromCSV.objForRow rowNum row).map DBRecordMetaData.summary := by
  have hlookup := (foldl_insert (objForRow_unique rowNum row)).1
  unfold Expected summary
  rw [List.mem_map]
  constructor
  · rintro ⟨o, ho, htype, hsize⟩
    obtain ⟨homem, hname⟩ := (hlookup _ _).mp ho
    refine ⟨o, homem, ?_⟩
    rw [DBRecordMetaData.summary, hname, htype, hsize]
  · rintro ⟨o, homem, heq⟩
    obtain ⟨hname, hrest⟩ := Prod.mk.inj heq
    obtain ⟨htype, hsize⟩ := Prod.mk.inj hrest
    exact ⟨o, (hlookup _ _).mpr ⟨homem, hname⟩, htype.symm, hsize.symm⟩

theorem length_objForRow :
    (reconFromCSV.objForRow rowNum row).keys.length =
      (dataLoadFromCSV.objForRow rowNum row).length :=
  (foldl_insert (objForRow_unique rowNum row)).2

/-- Distinct rows that are all expected, as many as there are: nothing is missing. -/
theorem exact_iff {found : List ObjectRow}
    (hunique : Foundation.KeyedRows.Unique ObjectRow.name found) :
    (∀ r ∈ found, Expected (reconFromCSV.objForRow rowNum row) r) ∧
        (reconFromCSV.objForRow rowNum row).keys.length ≤ found.length ↔
      (found.map summary).Perm
        ((dataLoadFromCSV.objForRow rowNum row).map DBRecordMetaData.summary) := by
  simp only [expected_iff, length_objForRow]
  constructor
  · rintro ⟨hexpected, hlength⟩
    have hnodup : (found.map summary).Nodup := by
      apply List.Nodup.of_map Prod.fst
      rwa [List.map_map]
    have hsubset : found.map summary ⊆
        (dataLoadFromCSV.objForRow rowNum row).map DBRecordMetaData.summary := by
      intro s hs
      obtain ⟨r, hr, rfl⟩ := List.mem_map.mp hs
      exact hexpected r hr
    apply (List.subperm_of_subset hnodup hsubset).perm_of_length_le
    rwa [List.length_map, List.length_map]
  · intro hperm
    constructor
    · intro r hr
      exact hperm.mem_iff.mp (List.mem_map_of_mem hr)
    · have hlength := hperm.length_eq
      rw [List.length_map, List.length_map] at hlength
      exact hlength.ge

/-- **A row is checked without complaint exactly when** the rows named after it are the
objects the loader makes for it, and no object of another row is named so. -/
theorem clean_iff_exact (hlower : Lowers Caseless (Jdk.lower jdk))
    (hname : Foundation.KeyedRows.Unique ObjectRow.name table)
    (hnameLower : ∀ r ∈ table, r.nameLower = jdk.toLowerCase r.name) {found : List ObjectRow}
    (hfound : found.Perm (Store.GET_MANY_RECORDS_SUMM (rowPattern rowNum) table)) :
    ((ReconTask2.run Failures.none rowNum (reconFromCSV.objForRow rowNum row) found).Clean ↔
      ((rowsNamed rowNum table).map summary).Perm
        ((dataLoadFromCSV.objForRow rowNum row).map DBRecordMetaData.summary)) ∧
    ∀ (rowNum' : ℕ) (row' : CsvRow), ∀ o ∈ dataLoadFromCSV.objForRow rowNum' row',
      (like (rowPattern rowNum) (jdk.toLowerCase o.name).toList = true ↔ rowNum' = rowNum) := by
  constructor
  · rw [found_eq hlower hnameLower] at hfound
    have hunique : Foundation.KeyedRows.Unique ObjectRow.name found := by
      apply (hfound.map ObjectRow.name).nodup_iff.mpr
      exact (List.filter_sublist.map ObjectRow.name).nodup hname
    rw [clean_run_iff, exact_iff hunique]
    have hsummary := hfound.map summary
    exact ⟨fun h => hsummary.symm.trans h, fun h => hsummary.trans h⟩
  · intro rowNum' row' o ho
    obtain ⟨j, _, rfl⟩ := List.mem_map.mp ho
    rw [like_rowPattern_iff, rowPrefix_toLowerCase_iff hlower, rowPrefix_name_iff]

end Table

theorem caseless_iff_toNat (c : Char) :
    Caseless c ↔ (48 ≤ c.toNat ∧ c.toNat ≤ 57) ∨ c.toNat = 45 := by
  unfold Caseless
  rw [Char.isDigit_iff_toNat]
  apply or_congr Iff.rfl
  constructor
  · rintro rfl
    rfl
  · intro h
    exact Char.toNat_inj.mp h

theorem toLower_cases (c : Char) :
    c.toLower = c ∨ (65 ≤ c.toNat ∧ c.toNat ≤ 90 ∧ c.toLower.toNat = c.toNat + 32) := by
  unfold Char.toLower
  split
  · rename_i h
    right
    have hge : 65 ≤ c.toNat := h.1
    have hle : c.toNat ≤ 90 := h.2
    refine ⟨hge, hle, ?_⟩
    change (c.val + ('a'.val - 'A'.val)).toNat = c.val.toNat + 32
    rw [UInt32.toNat_add]
    change (c.toNat + 32) % 2 ^ 32 = c.toNat + 32
    omega
  · left
    rfl

theorem Jdk.lower_ascii (s : List Char) : Jdk.lower Jdk.ascii s = s.map Char.toLower := by
  unfold Jdk.lower Jdk.ascii
  rw [String.toList_ofList, String.toList_ofList]

theorem Jdk.lowers_ascii : Lowers Caseless (Jdk.lower Jdk.ascii) := by
  refine ⟨?_, ?_, rfl⟩
  · intro c s hc
    rw [Jdk.lower_ascii, Jdk.lower_ascii, List.map_cons]
    rcases toLower_cases c with hkept | ⟨hge, hle, _⟩
    · rw [hkept]
    · rw [caseless_iff_toNat] at hc
      omega
  · intro c s hc d t hlower
    rw [Jdk.lower_ascii, List.map_cons] at hlower
    rw [← (List.cons.inj hlower).1]
    rw [caseless_iff_toNat] at hc ⊢
    rcases toLower_cases c with hkept | ⟨hge, hle, hvalue⟩
    · rwa [hkept]
    · omega

/-- An object of row 5, of a negative class, next to one of row 50. -/
def fiveAndFifty : List ObjectRow :=
  [InsertionTask.insertRec ⟨0⟩ (dbRecordMetaData 5 ⟨-7, 1, 1⟩ 0),
    InsertionTask.insertRec ⟨0⟩ (dbRecordMetaData 50 ⟨3, 0, 1⟩ 0)]

/-- Row 5 is checked without complaint, and the object of row 50 is not taken for one of it. -/
theorem clean_fiveAndFifty :
    (ReconTask2.run Failures.none 5 (reconFromCSV.objForRow 5 ⟨-7, 1, 1⟩)
      (Store.GET_MANY_RECORDS_SUMM (rowPattern 5) fiveAndFifty)).Clean := by
  have hname : Foundation.KeyedRows.Unique ObjectRow.name fiveAndFifty := by
    decide +kernel
  have hnameLower : ∀ r ∈ fiveAndFifty, r.nameLower = Jdk.ascii.toLowerCase r.name := by
    decide +kernel
  apply (clean_iff_exact Jdk.lowers_ascii hname hnameLower (List.Perm.refl _)).1.mpr
  decide +kernel

end AuroraSizing.Reconciliation

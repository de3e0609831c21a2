import AuroraSizing.Foundation.SqlText
import AuroraSizing.Objects.IndexBatches
import Mathlib.Data.List.Induction

/-!
# The reads of one index record

Three calls read one record of an index table. `getIndexMsgByName` writes the name into the
text of its query, which compares it with `name`; the other two bind it and compare it with
`nameLower`, in lower case for `getIndexMsgManyByNameExtStream` and as it is for
`getIndexRecordMany`, whose handler calls `get()` on an `Optional` that may be empty.
`index_reads_agree_iff` says for which names all this comes to one.
-/

namespace AuroraSizing.IndexReads

open Foundation.KeyedRows Foundation.SqlText IndexBatches MultiReads

/-- An index table with the lower-case key. -/
structure LowerIndexTable (jdk : Jdk) extends IndexTable where
  tableName : String
  lower : ∀ r ∈ rows, r.nameLower = jdk.toLowerCase r.name

/-! ## The queries -/

def GET_FULL_INDEX_RECORD : String := "Select %s from %s where name = '%s'"

/-- The text of `getIndexObjectsFromCSV`. -/
def fullIndexRecord (tableName securityName : String) : List Char :=
  formatS GET_FULL_INDEX_RECORD.toList ["*", tableName, securityName]

/-- What the database makes of the texts that are not a `select` by one name; `none` is an
error. -/
abbrev OtherTexts := List Char → Option (List IndexRow)

/-- The rows a text of `getIndexObjectsFromCSV` selects. -/
def select (other : OtherTexts) (tableName : String) (rows : List IndexRow) (text : List Char) :
    Option (List IndexRow) :=
  let opening := ("Select * from " ++ tableName ++ " where name = '").toList
  if opening <+: text then
    match readLiteral (text.drop opening.length) with
    | some (name, []) => some (rows.filter fun r => r.name = String.ofList name)
    | _ => other text
  else other text

/-- `GET_MANY_INDEX_RECORDS`, with the names in lower case. -/
def Store.GET_MANY_INDEX_RECORDS (jdk : Jdk) (rows : List IndexRow) (names : List String) :
    List IndexRow :=
  rows.filter fun r => r.nameLower ∈ names.map jdk.toLowerCase

def Store.GET_INDEX_RECORD (rows : List IndexRow) (p₁ : String) : List IndexRow :=
  rows.filter fun r => r.nameLower = p₁

/-! ## The repository -/

inductive CmdMsgIndexGetByNameResponse where
  | msgOnSuccess (m : MsgOnSuccess)
  | errorCode (errorCode : JInt)
deriving DecidableEq, Repr

/-- The security name of the answer is the one asked for; `none` is the `null` of a query that
raised. -/
def ObjectRepository.getIndexObjectsFromCSV (other : OtherTexts) (tableName : String)
    (rows : List IndexRow) (securityName : String) : Option CmdMsgIndexGetByNameResponse :=
  match select other tableName rows (fullIndexRecord tableName securityName) with
  | none => none
  | some [] => some (.errorCode 1)
  | some (row :: _) => some (.msgOnSuccess { row.toMsgOnSuccess with securityName := securityName })

/-- `found` is what the query finds, in the order of the database. -/
def ObjectRepository.getIdxManyByNameStreamFromCSV (found : List IndexRow) : List MsgOnSuccess :=
  found.map IndexRow.toMsgOnSuccess

structure IndexRecDTO where
  objKey : String
  doubleMap : List (String × BitVec 64)
  stringMap : List (String × String)
deriving DecidableEq, Repr

def IndexRow.toIndexRecDTO (row : IndexRow) : IndexRecDTO :=
  ⟨row.name, row.toMsgOnSuccess.doubleVal, row.toMsgOnSuccess.stringVal⟩

/-- An `IndexRecord` has the fields of the other messages. -/
def IndexRecDTO.toCmdMsgIndexGetByNameWithClientResponse (d : IndexRecDTO) : MsgOnSuccess :=
  ⟨d.objKey, d.doubleMap, d.stringMap⟩

/-- `while (rs.next())` keeps the last row. -/
def ObjectRepository.getIndexRecord (found : List IndexRow) : Option IndexRecDTO :=
  found.foldl (fun _ row => some (IndexRow.toIndexRecDTO row)) none

/-! ## The handlers -/

/-- `onNext(null)` throws, and the `catch` only logs. -/
def ObjServiceImpl.getIndexMsgByName (response : Option CmdMsgIndexGetByNameResponse) :
    Exchange CmdMsgIndexGetByNameResponse :=
  match response with
  | some r => ⟨[r], .onCompleted⟩
  | none => ⟨[], .pending⟩

def ObjServiceImpl.getIndexMsgManyByNameExtStream (responseMessageList : List MsgOnSuccess) :
    Exchange MsgOnSuccess :=
  ⟨responseMessageList, .onCompleted⟩

/-- `get()` on the empty `Optional` leaves the handler, and the server ends the call with an
error. -/
def ObjServiceImpl.getIndexRecordMany (indexRecord : Option IndexRecDTO) :
    Exchange (List MsgOnSuccess) :=
  match indexRecord with
  | some d => ⟨[[d.toCmdMsgIndexGetByNameWithClientResponse]], .onCompleted⟩
  | none => ⟨[], .onError⟩

/-! ## What the client is told

`some (some m)` is a record and `some none` its absence; `none` is neither. -/

def reportByName (x : Exchange CmdMsgIndexGetByNameResponse) : Option (Option MsgOnSuccess) :=
  match x with
  | ⟨[.msgOnSuccess m], .onCompleted⟩ => some (some m)
  | ⟨[.errorCode _], .onCompleted⟩ => some none
  | _ => none

def reportMany (x : Exchange MsgOnSuccess) : Option (Option MsgOnSuccess) :=
  match x with
  | ⟨[m], .onCompleted⟩ => some (some m)
  | ⟨[], .onCompleted⟩ => some none
  | _ => none

def reportRecord (x : Exchange (List MsgOnSuccess)) : Option (Option MsgOnSuccess) :=
  match x with
  | ⟨[[m]], .onCompleted⟩ => some (some m)
  | ⟨[[]], .onCompleted⟩ => some none
  | _ => none

/-- All three tell the client the same: one record, or that there is none. -/
def ReadsAgree {jdk : Jdk} (other : OtherTexts) (table : LowerIndexTable jdk) (s : String) : Prop :=
  ∀ many record : List IndexRow,
    many.Perm (Store.GET_MANY_INDEX_RECORDS jdk table.rows [s]) →
    record.Perm (Store.GET_INDEX_RECORD table.rows s) →
    ∃ report : Option MsgOnSuccess,
      reportByName (ObjServiceImpl.getIndexMsgByName
        (ObjectRepository.getIndexObjectsFromCSV other table.tableName table.rows s)) =
          some report ∧
      reportMany (ObjServiceImpl.getIndexMsgManyByNameExtStream
        (ObjectRepository.getIdxManyByNameStreamFromCSV many)) = some report ∧
      reportRecord (ObjServiceImpl.getIndexRecordMany
        (ObjectRepository.getIndexRecord record)) = some report

/-! ## The text of the first query -/

theorem fullIndexRecord_eq (tableName s : String) :
    fullIndexRecord tableName s =
      ("Select * from " ++ tableName ++ " where name = '").toList ++ (s.toList ++ ['\'']) := by
  rw [String.toList_append, String.toList_append, List.append_assoc]
  rfl

/-- A name without a quote is compared with `name` as it is. -/
theorem select_of_plain (other : OtherTexts) (tableName : String) (rows : List IndexRow)
    {s : String} (h : '\'' ∉ s.toList) :
    select other tableName rows (fullIndexRecord tableName s) =
      some (rows.filter fun r => r.name = s) := by
  have hread : readLiteral ((fullIndexRecord tableName s).drop
      ("Select * from " ++ tableName ++ " where name = '").toList.length) =
        some (s.toList, []) := by
    rw [fullIndexRecord_eq, List.drop_left]
    exact readLiteral_of_plain h
  have hopening : ("Select * from " ++ tableName ++ " where name = '").toList <+:
      fullIndexRecord tableName s := by
    rw [fullIndexRecord_eq]
    exact List.prefix_append _ _
  simp only [select, if_pos hopening, hread, String.ofList_toList]

/-! ## What is reported -/

variable {other : OtherTexts} {tableName : String} {rows : List IndexRow} {s : String}

theorem reportByName_eq_some_iff {m : MsgOnSuccess} :
    reportByName (ObjServiceImpl.getIndexMsgByName
        (ObjectRepository.getIndexObjectsFromCSV other tableName rows s)) = some (some m) ↔
      ∃ r rest, select other tableName rows (fullIndexRecord tableName s) = some (r :: rest) ∧
        m = { r.toMsgOnSuccess with securityName := s } := by
  unfold ObjectRepository.getIndexObjectsFromCSV
  cases hselect : select other tableName rows (fullIndexRecord tableName s) with
  | none => simp [ObjServiceImpl.getIndexMsgByName, reportByName]
  | some found =>
      cases found with
      | nil => simp [ObjServiceImpl.getIndexMsgByName, reportByName]
      | cons r rest =>
          simp only [ObjServiceImpl.getIndexMsgByName, reportByName, Option.some.injEq,
            List.cons.injEq]
          constructor
          · rintro rfl
            exact ⟨r, rest, ⟨rfl, rfl⟩, rfl⟩
          · rintro ⟨r', rest', ⟨rfl, rfl⟩, rfl⟩
            rfl

theorem reportMany_eq_some_iff {found : List IndexRow} {m : MsgOnSuccess} :
    reportMany (ObjServiceImpl.getIndexMsgManyByNameExtStream
        (ObjectRepository.getIdxManyByNameStreamFromCSV found)) = some (some m) ↔
      ∃ r, found = [r] ∧ m = r.toMsgOnSuccess := by
  match found with
  | [] => simp [reportMany, ObjServiceImpl.getIndexMsgManyByNameExtStream,
      ObjectRepository.getIdxManyByNameStreamFromCSV]
  | [r] =>
      constructor
      · intro h
        cases h
        exact ⟨r, rfl, rfl⟩
      · rintro ⟨r', heq, rfl⟩
        cases heq
        rfl
  | r :: r' :: rest => simp [reportMany, ObjServiceImpl.getIndexMsgManyByNameExtStream,
      ObjectRepository.getIdxManyByNameStreamFromCSV]

/-- The record kept is the last one. -/
theorem getIndexRecord_eq (found : List IndexRow) :
    ObjectRepository.getIndexRecord found = found.getLast?.map IndexRow.toIndexRecDTO := by
  induction found using List.reverseRecOn with
  | nil => rfl
  | append_singleton found r _ =>
      rw [ObjectRepository.getIndexRecord, List.foldl_append, List.getLast?_concat]
      rfl

/-- `getIndexRecordMany` tells of a record or of nothing: an absence is never reported. -/
theorem reportRecord_eq_some_iff {found : List IndexRow} {report : Option MsgOnSuccess} :
    reportRecord (ObjServiceImpl.getIndexRecordMany (ObjectRepository.getIndexRecord found)) =
        some report ↔
      ∃ r, found.getLast? = some r ∧ report = some r.toMsgOnSuccess := by
  rw [getIndexRecord_eq]
  cases hlast : found.getLast? with
  | none => simp [reportRecord, ObjServiceImpl.getIndexRecordMany]
  | some r =>
      constructor
      · intro h
        cases h
        exact ⟨r, rfl, rfl⟩
      · rintro ⟨r', heq, rfl⟩
        cases heq
        rfl

/-! ## The agreement -/

/-- The text of the first query is that of a plain name, or it selects a row of the same
values first. -/
def SelectsLike (other : OtherTexts) (tableName : String) (rows : List IndexRow) (s : String)
    (r : IndexRow) : Prop :=
  '\'' ∉ s.toList ∨ ∃ r₁ rest,
    select other tableName rows (fullIndexRecord tableName s) = some (r₁ :: rest) ∧
      r₁.toMsgOnSuccess.doubleVal = r.toMsgOnSuccess.doubleVal ∧
      r₁.toMsgOnSuccess.stringVal = r.toMsgOnSuccess.stringVal

/-- The rows a key selects, when one row has it. -/
theorem filter_of_one {rows : List IndexRow}
    (hkey : Foundation.KeyedRows.Unique IndexRow.name rows) {select : IndexRow → Bool}
    {r : IndexRow} (hr : r ∈ rows) (hselect : select r = true)
    (hone : ∀ r' ∈ rows, select r' = true → r' = r) : rows.filter select = [r] := by
  obtain ⟨-, -, -, -, hfilter⟩ := rewrite_of_one (f := fun _ => none) hkey hr hselect
    (fun r' hr' hsel => congrArg IndexRow.name (hone r' hr' hsel))
  exact hfilter

/-- **The index reads agree exactly on** the names in lower case that are the name of a
record, alone under its lower case; an absence is never agreed on. -/
theorem index_reads_agree_iff (jdk : Jdk) (other : OtherTexts) (table : LowerIndexTable jdk)
    (s : String) :
    ReadsAgree other table s ↔
      jdk.toLowerCase s = s ∧ ∃ r ∈ table.rows, r.name = s ∧
        (∀ r' ∈ table.rows, r'.nameLower = s → r' = r) ∧
        SelectsLike other table.tableName table.rows s r := by
  have hmany : ∀ r : IndexRow, decide (r.nameLower ∈ [s].map jdk.toLowerCase) = true ↔
      r.nameLower = jdk.toLowerCase s := by simp
  have hrecord : ∀ r : IndexRow, decide (r.nameLower = s) = true ↔ r.nameLower = s := by simp
  constructor
  · intro h
    obtain ⟨report, hbyName, hstream, hlast⟩ := h _ _ (List.Perm.refl _) (List.Perm.refl _)
    -- the third call reports a record, so all three do
    obtain ⟨r, hfound, rfl⟩ := reportRecord_eq_some_iff.mp hlast
    obtain ⟨r₂, hone, hvalues⟩ := reportMany_eq_some_iff.mp hstream
    obtain ⟨r₁, rest, hselect, hfirst⟩ := reportByName_eq_some_iff.mp hbyName
    have hr := List.mem_filter.mp (List.mem_of_getLast? hfound)
    have hr₂ := List.mem_filter.mp (show r₂ ∈ Store.GET_MANY_INDEX_RECORDS jdk table.rows [s] by
      rw [hone]
      exact List.mem_singleton_self r₂)
    obtain rfl : r = r₂ := table.primaryKey.eq hr.1 hr₂.1
      (congrArg MsgOnSuccess.securityName hvalues)
    have hname : r.name = s := congrArg MsgOnSuccess.securityName hfirst
    have hlower : jdk.toLowerCase s = s := by
      rw [← (hmany r).mp hr₂.2]
      exact (hrecord r).mp hr.2
    refine ⟨hlower, r, hr.1, hname, ?_, .inr ⟨r₁, rest, hselect, ?_, ?_⟩⟩
    · intro r' hr' hkey
      have hmem : r' ∈ Store.GET_MANY_INDEX_RECORDS jdk table.rows [s] :=
        List.mem_filter.mpr ⟨hr', (hmany r').mpr (by rw [hkey, hlower])⟩
      rw [hone] at hmem
      exact List.mem_singleton.mp hmem
    · exact (congrArg MsgOnSuccess.doubleVal hfirst).symm
    · exact (congrArg MsgOnSuccess.stringVal hfirst).symm
  · rintro ⟨hlower, r, hr, hname, halone, hlike⟩ many record hperm hperm'
    have hkey : r.nameLower = s := by rw [table.lower r hr, hname, hlower]
    have hstream : Store.GET_MANY_INDEX_RECORDS jdk table.rows [s] = [r] :=
      filter_of_one table.primaryKey hr ((hmany r).mpr (by rw [hkey, hlower]))
        fun r' hr' hsel => halone r' hr' (by rw [(hmany r').mp hsel, hlower])
    have hlast : Store.GET_INDEX_RECORD table.rows s = [r] :=
      filter_of_one table.primaryKey hr ((hrecord r).mpr hkey)
        fun r' hr' hsel => halone r' hr' ((hrecord r').mp hsel)
    rw [hstream, List.perm_singleton] at hperm
    rw [hlast, List.perm_singleton] at hperm'
    subst hperm hperm'
    refine ⟨some r.toMsgOnSuccess, ?_, reportMany_eq_some_iff.mpr ⟨r, rfl, rfl⟩,
      reportRecord_eq_some_iff.mpr ⟨r, rfl, rfl⟩⟩
    rw [reportByName_eq_some_iff]
    rcases hlike with hplain | ⟨r₁, rest, hselect, hdouble, hstring⟩
    · refine ⟨r, [], ?_, by rw [← hname]; rfl⟩
      rw [select_of_plain other table.tableName table.rows hplain]
      congr 1
      exact filter_of_one table.primaryKey hr (decide_eq_true hname) fun r' hr' hsel =>
        table.primaryKey.eq hr' hr ((of_decide_eq_true hsel).trans hname.symm)
    · refine ⟨r₁, rest, hselect, ?_⟩
      show r.toMsgOnSuccess =
        ⟨s, r₁.toMsgOnSuccess.doubleVal, r₁.toMsgOnSuccess.stringVal⟩
      rw [hdouble, hstring, ← hname]
      rfl

/-! ## A name in mixed case -/

/-- One record, whose name is not in lower case. -/
def alphaTable : LowerIndexTable Jdk.ascii where
  rows := [⟨[("price", .float 0)], "Alpha", "alpha"⟩]
  primaryKey := List.nodup_singleton _
  tableName := "idx"
  lower := by decide

/-- Under its own name two calls find the record, and the third ends in an error. -/
theorem own_name_in_two_of_three :
    reportByName (ObjServiceImpl.getIndexMsgByName (ObjectRepository.getIndexObjectsFromCSV
        (fun _ => none) "idx" alphaTable.rows "Alpha")) =
          some (some ⟨"Alpha", [("price", 0)], []⟩) ∧
      reportMany (ObjServiceImpl.getIndexMsgManyByNameExtStream
        (ObjectRepository.getIdxManyByNameStreamFromCSV
          (Store.GET_MANY_INDEX_RECORDS Jdk.ascii alphaTable.rows ["Alpha"]))) =
        some (some ⟨"Alpha", [("price", 0)], []⟩) ∧
      ObjServiceImpl.getIndexRecordMany (ObjectRepository.getIndexRecord
        (Store.GET_INDEX_RECORD alphaTable.rows "Alpha")) = ⟨[], .onError⟩ ∧
      ¬ ReadsAgree (fun _ => none) alphaTable "Alpha" := by
  have herror : ObjServiceImpl.getIndexRecordMany (ObjectRepository.getIndexRecord
      (Store.GET_INDEX_RECORD alphaTable.rows "Alpha")) = ⟨[], .onError⟩ := by decide
  refine ⟨by decide +kernel, by decide +kernel, herror, ?_⟩
  intro h
  obtain ⟨report, -, -, hlast⟩ := h _ _ (List.Perm.refl _) (List.Perm.refl _)
  rw [herror] at hlast
  cases hlast

end AuroraSizing.IndexReads

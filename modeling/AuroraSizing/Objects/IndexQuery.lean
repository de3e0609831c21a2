import AuroraSizing.Foundation.SqlSelect
import AuroraSizing.Objects.IndexReads

/-!
# The name in the index query

`getIndexObjectsFromCSV` writes the name it is asked for between two quotes of its text, as it
is. A quote in the name ends the string there, and the database reads on in the name.
-/

namespace AuroraSizing.IndexReads

open Foundation.KeyedRows Foundation.SqlSelect Foundation.SqlText IndexBatches MultiReads

/-- The texts in a row. Its columns were named without quotes, so their names are folded. -/
def textOf (r : IndexRow) (column : String) : Option String :=
  if column = "name" then some r.name
  else if column = "namelower" then some r.nameLower
  else
    match r.columns.find? fun c => decide (c.1.toList.map Char.toLower = column.toList) with
    | some (_, .varchar s) => some s
    | _ => none

/-- A database that runs what reads as one `select`. -/
def executed (rows : List IndexRow) : OtherTexts := fun text =>
  (parse text).map fun q => q.rows textOf rows

/-- The name is one string of the query, and the answer is the record of that name or the error
that there is none. -/
structure StaysData (other : List IndexRow → OtherTexts) (tableName : String)
    (table : List Token) (s : String) : Prop where
  parsed : parse (fullIndexRecord tableName s) =
    some ⟨table, [⟨.column "name", .literal s⟩]⟩
  answered : ∀ t : IndexTable,
    (∃ r ∈ t.rows, r.name = s ∧
      ObjServiceImpl.getIndexMsgByName
        (ObjectRepository.getIndexObjectsFromCSV (other t.rows) tableName t.rows s) =
          ⟨[.msgOnSuccess r.toMsgOnSuccess], .onCompleted⟩) ∨
    ((∀ r ∈ t.rows, r.name ≠ s) ∧
      ObjServiceImpl.getIndexMsgByName
        (ObjectRepository.getIndexObjectsFromCSV (other t.rows) tableName t.rows s) =
          ⟨[.errorCode 1], .onCompleted⟩)

/-- A name without a quote is answered with its record. -/
theorem answered_of_plain (other : OtherTexts) (tableName : String) (t : IndexTable) {s : String}
    (h : '\'' ∉ s.toList) :
    (∃ r ∈ t.rows, r.name = s ∧
      ObjServiceImpl.getIndexMsgByName
        (ObjectRepository.getIndexObjectsFromCSV other tableName t.rows s) =
          ⟨[.msgOnSuccess r.toMsgOnSuccess], .onCompleted⟩) ∨
    ((∀ r ∈ t.rows, r.name ≠ s) ∧
      ObjServiceImpl.getIndexMsgByName
        (ObjectRepository.getIndexObjectsFromCSV other tableName t.rows s) =
          ⟨[.errorCode 1], .onCompleted⟩) := by
  rw [ObjectRepository.getIndexObjectsFromCSV, select_of_plain other tableName t.rows h]
  cases hfound : t.rows.filter fun r => decide (r.name = s) with
  | nil =>
      right
      refine ⟨?_, rfl⟩
      intro r hr hname
      have hmem : r ∈ t.rows.filter fun r => decide (r.name = s) :=
        List.mem_filter.mpr ⟨hr, decide_eq_true hname⟩
      rw [hfound] at hmem
      cases hmem
  | cons r rest =>
      left
      have hmem : r ∈ t.rows.filter fun r => decide (r.name = s) := by
        rw [hfound]
        exact List.mem_cons_self ..
      obtain ⟨hr, hname⟩ := List.mem_filter.mp hmem
      have hname : r.name = s := of_decide_eq_true hname
      refine ⟨r, hr, hname, ?_⟩
      rw [← hname]
      rfl

/-- **The name stays data exactly when** it has no quote. -/
theorem getIndexMsgByName_staysData_iff (other : List IndexRow → OtherTexts) (tableName : String)
    (table : List Token) (htable : ValidTableName tableName.toList table) (s : String) :
    StaysData other tableName table s ↔ '\'' ∉ s.toList := by
  have hparse : parse (fullIndexRecord tableName s) =
      some ⟨table, [⟨.column "name", .literal s⟩]⟩ ↔ '\'' ∉ s.toList := by
    have hiff := parse_by_string_iff htable s.toList
    rw [String.ofList_toList] at hiff
    rw [fullIndexRecord_eq, String.toList_append, String.toList_append, List.append_assoc,
      List.append_assoc]
    exact hiff
  constructor
  · intro h
    exact hparse.mp h.parsed
  · intro h
    exact ⟨hparse.mpr h, fun t => answered_of_plain (other t.rows) tableName t h⟩

theorem idx_valid : ValidTableName "idx".toList [.word "idx"] where
  closed := by decide +kernel
  tableName := by decide +kernel

theorem alpha_staysData : StaysData executed "idx" [.word "idx"] "Alpha" ↔ '\'' ∉ "Alpha".toList :=
  getIndexMsgByName_staysData_iff executed "idx" [.word "idx"] idx_valid "Alpha"

/-- This name makes a condition that holds in every row, so it is answered with another record. -/
theorem name_becomes_condition :
    parse (fullIndexRecord "idx" "x' or 'a' = 'a") =
      some ⟨[.word "idx"], [⟨.column "name", .literal "x"⟩, ⟨.literal "a", .literal "a"⟩]⟩ ∧
    ObjServiceImpl.getIndexMsgByName (ObjectRepository.getIndexObjectsFromCSV
        (executed alphaTable.rows) "idx" alphaTable.rows "x' or 'a' = 'a") =
      ⟨[.msgOnSuccess ⟨"x' or 'a' = 'a", [("price", 0)], []⟩], .onCompleted⟩ ∧
    ¬ StaysData executed "idx" [.word "idx"] "x' or 'a' = 'a" := by
  have hparsed : parse (fullIndexRecord "idx" "x' or 'a' = 'a") =
      some ⟨[.word "idx"], [⟨.column "name", .literal "x"⟩, ⟨.literal "a", .literal "a"⟩]⟩ := by
    decide +kernel
  refine ⟨hparsed, by decide +kernel, ?_⟩
  intro h
  have heq := h.parsed
  rw [hparsed] at heq
  exact absurd heq (by decide +kernel)

end AuroraSizing.IndexReads

import AuroraSizing.Lookup.Queries
import Mathlib.Data.List.Perm.Basic
import Mathlib.Data.String.Basic

/-!
# When the two lookups agree

`Repository::lookup_async` asks for the rows from `$1` on, in no order. Whatever
the prefix, that answers the Java lookup only on tables with hardly a row up
there: `lookups_agree_iff`.
-/

namespace AuroraSizing.Lookup

open Foundation.SqlText

variable {jdk : Jdk} {col : Collation} {table : LowerTable jdk} {namePrefix : String}

/-- The rows whose `nameLower` is not below `bound`. -/
def LowerTable.above (col : Collation) (table : LowerTable jdk) (bound : String) :
    List ObjectRow :=
  table.rows.filter fun r => col.le bound r.nameLower

def nameLowerLe (col : Collation) (r s : ObjectRow) : Bool := col.le r.nameLower s.nameLower

/-- The names of the `n` rows smallest from `bound` on. -/
def LowerTable.smallest (col : Collation) (table : LowerTable jdk) (bound : String) (n : ℕ) :
    List String :=
  (((table.above col bound).mergeSort (nameLowerLe col)).take n).map ObjectRow.name

/-! ## Rows -/

theorem LowerTable.eq_of_nameLower {r s : ObjectRow} (hr : r ∈ table.rows)
    (hs : s ∈ table.rows) (h : r.nameLower = s.nameLower) : r = s :=
  table.objectLowerName.eq hr hs h

theorem LowerTable.eq_of_name {r s : ObjectRow} (hr : r ∈ table.rows) (hs : s ∈ table.rows)
    (h : r.name = s.name) : r = s := by
  apply table.eq_of_nameLower hr hs
  rw [table.lower r hr, table.lower s hs, h]

theorem LowerTable.above_nodup (bound : String) : (table.above col bound).Nodup :=
  (List.Nodup.of_map _ table.objectLowerName).filter _

theorem LowerTable.mem_above {bound : String} {r : ObjectRow} :
    r ∈ table.above col bound ↔ r ∈ table.rows ∧ col.le bound r.nameLower = true :=
  List.mem_filter

/-! ## What the statements return -/

theorem mergeSort_sorted (col : Collation) (rows : List ObjectRow) :
    (rows.mergeSort (nameLowerLe col)).Pairwise fun r s => nameLowerLe col r s = true :=
  @List.pairwise_mergeSort _ (nameLowerLe col)
    (fun r s t => col.trans r.nameLower s.nameLower t.nameLower)
    (fun r s => col.total r.nameLower s.nameLower) rows

/-- Rows of one table in ascending order are one list. -/
theorem sorted_unique {bound : String} {rows : List ObjectRow}
    (hperm : rows.Perm (table.above col bound)) (hsorted : Ordered col (some .asc) rows) :
    rows = (table.above col bound).mergeSort (nameLowerLe col) := by
  refine List.Perm.eq_of_pairwise ?_ hsorted (mergeSort_sorted col _)
    (hperm.trans (List.mergeSort_perm _ _).symm)
  intro r s hr hs hrs hsr
  have hr' := (table.mem_above.mp (hperm.subset hr)).1
  have hs' := (table.mem_above.mp ((List.mergeSort_perm _ _).subset hs)).1
  exact table.eq_of_nameLower hr' hs' (col.antisymm _ _ hrs hsr)

/-- **The Java lookup is a function**: the names of the smallest rows from
`lower(name)` on. -/
theorem returns_lookup_iff {limit : JInt} (hlimit : 0 ≤ limit.toInt) {names : List String} :
    Returns col table (ObjectRepository.lookup jdk namePrefix METADATA_GET_GREATER limit) names ↔
      names = table.smallest col (jdk.toLowerCase namePrefix) limit.toInt.toNat := by
  constructor
  · rintro ⟨q, bound, n, rows, hparse, hbound, hn, -, hperm, hordered, rfl⟩
    rw [parse_lookup, Option.some.injEq] at hparse
    subst hparse
    obtain rfl : jdk.toLowerCase namePrefix = bound := by
      simpa [Operand.value, ObjectRepository.lookup] using hbound
    obtain rfl : limit.toInt = n := by
      simpa [Operand.value, ObjectRepository.lookup] using hn
    rw [sorted_unique hperm hordered]
    rfl
  · rintro rfl
    exact ⟨_, jdk.toLowerCase namePrefix, limit.toInt, _, parse_lookup jdk namePrefix limit,
      rfl, rfl, hlimit, List.mergeSort_perm _ _, mergeSort_sorted col _, rfl⟩

/-- The C++ lookup is a choice: any rows from `$1` on, in any order. -/
theorem returns_lookupAsync_iff {count : BitVec 16} (hcount : 0 ≤ count.toInt)
    {names : List String} :
    Returns col table (Repository.lookupAsync namePrefix count) names ↔
      ∃ rows : List ObjectRow, rows.Perm (table.above col "$1") ∧
        names = (rows.take count.toInt.toNat).map ObjectRow.name := by
  rw [returns_iff_answers, answers_lookupAsync_iff]
  exact and_iff_right hcount

/-! ## Agreement -/

/-- Two rows from `$1` on can come in two orders, with two different first names. -/
theorem choice_of_two {n : ℕ} (hn : 0 < n) (h : 2 ≤ (table.above col "$1").length) :
    ∃ rows rows' : List ObjectRow, rows.Perm (table.above col "$1") ∧
      rows'.Perm (table.above col "$1") ∧
      (rows.take n).map ObjectRow.name ≠ (rows'.take n).map ObjectRow.name := by
  obtain ⟨m, rfl⟩ : ∃ m, n = m + 1 := ⟨n - 1, by omega⟩
  have hnodup : (table.above col "$1").Nodup := table.above_nodup "$1"
  have hmem : ∀ x ∈ table.above col "$1", x ∈ table.rows := fun x hx => (table.mem_above.mp hx).1
  rcases habove : table.above col "$1" with _ | ⟨r, _ | ⟨s, rest⟩⟩
  · simp [habove] at h
  · simp [habove] at h
  · rw [habove] at hnodup hmem
    have hne : r ≠ s := fun heq => (List.nodup_cons.mp hnodup).1 (heq ▸ List.mem_cons_self)
    refine ⟨r :: s :: rest, s :: r :: rest, List.Perm.refl _, List.Perm.swap r s rest, ?_⟩
    simp only [List.take_succ_cons, List.map_cons]
    intro heq
    have hname : r.name = s.name := (List.cons.inj heq).1
    exact hne (table.eq_of_name (hmem r (by simp)) (hmem s (by simp)) hname)

/-- At most one row up there leaves no choice. -/
theorem returns_of_le_one {n : ℕ} (hn : 0 < n) (h : (table.above col "$1").length ≤ 1)
    {rows : List ObjectRow} (hperm : rows.Perm (table.above col "$1")) :
    rows.take n = table.above col "$1" := by
  rcases habove : table.above col "$1" with _ | ⟨r, _ | ⟨s, rest⟩⟩
  · rw [habove] at hperm
    rw [hperm.eq_nil, List.take_nil]
  · rw [habove] at hperm
    rw [List.perm_singleton.mp hperm]
    exact List.take_of_length_le hn
  · simp [habove] at h

/-- The rows from `$1` on are those from the bound on, as soon as they are the smallest
of those: what is above a row from `$1` on is from `$1` on itself. -/
theorem above_eq_of_smallest {bound : String} {n : ℕ} (hn : 0 < n)
    (h : (table.above col "$1").length ≤ 1)
    (hsmallest : table.smallest col bound n = (table.above col "$1").map ObjectRow.name) :
    table.above col "$1" = table.above col bound := by
  obtain ⟨m, rfl⟩ : ∃ m, n = m + 1 := ⟨n - 1, by omega⟩
  have hperm := List.mergeSort_perm (table.above col bound) (nameLowerLe col)
  have hsorted := mergeSort_sorted col (table.above col bound)
  rw [LowerTable.smallest] at hsmallest
  generalize (table.above col bound).mergeSort (nameLowerLe col) = sorted
    at hperm hsorted hsmallest
  rcases habove : table.above col "$1" with _ | ⟨r, _ | ⟨s, rest⟩⟩
  · rw [habove] at hsmallest
    cases sorted with
    | nil => exact hperm.nil_eq.symm ▸ rfl
    | cons x xs => cases hsmallest
  · rw [habove] at hsmallest
    cases sorted with
    | nil => cases hsmallest
    | cons x xs =>
        -- the one row from `$1` on is also the smallest from the bound on
        have hname : x.name = r.name := (List.cons.inj hsmallest).1
        have hr : r ∈ table.rows ∧ col.le "$1" r.nameLower = true :=
          table.mem_above.mp (habove ▸ List.mem_cons_self)
        have hx : x ∈ table.rows ∧ col.le bound x.nameLower = true :=
          table.mem_above.mp (hperm.subset List.mem_cons_self)
        obtain rfl : x = r := table.eq_of_name hx.1 hr.1 hname
        rw [← habove]
        apply List.filter_congr
        intro y hy
        apply Bool.eq_iff_iff.mpr
        constructor
        · intro hle
          have hmem : y ∈ table.above col "$1" := table.mem_above.mpr ⟨hy, hle⟩
          rw [habove] at hmem
          obtain rfl := List.mem_singleton.mp hmem
          exact hx.2
        · intro hle
          have hmem := hperm.symm.subset (table.mem_above.mpr ⟨hy, hle⟩)
          rcases List.mem_cons.mp hmem with rfl | hmem
          · exact hr.2
          · exact col.trans _ _ _ hr.2 ((List.pairwise_cons.mp hsorted).1 y hmem)
  · simp [habove] at h

/-- **The C++ lookup answers like the Java one exactly on tables with at most one row
from `$1` on**, when these are also the rows from the lower-cased prefix on. -/
theorem lookups_agree_iff (jdk : Jdk) (col : Collation) (table : LowerTable jdk)
    (namePrefix : String) (count : Count) :
    LookupsAgree col table namePrefix count ↔
      table.above col "$1" = table.above col (jdk.toLowerCase namePrefix) ∧
        (table.above col "$1").length ≤ 1 := by
  rcases count with ⟨count, hpos⟩
  have hextend : (count.signExtend 32).toInt = count.toInt :=
    BitVec.toInt_signExtend_of_le (by decide)
  have hn : 0 < count.toInt.toNat := by omega
  have hjava : ∀ names, Returns col table
      (ObjectRepository.lookup jdk namePrefix METADATA_GET_GREATER (count.signExtend 32)) names ↔
        names = table.smallest col (jdk.toLowerCase namePrefix) count.toInt.toNat := by
    intro names
    rw [returns_lookup_iff (by omega), hextend]
  have hcpp : ∀ names, Returns col table (Repository.lookupAsync namePrefix count) names ↔
      ∃ rows : List ObjectRow, rows.Perm (table.above col "$1") ∧
        names = (rows.take count.toInt.toNat).map ObjectRow.name :=
    fun names => returns_lookupAsync_iff (by omega)
  simp only [LookupsAgree, hjava, hcpp]
  constructor
  · intro hagree
    -- with two rows C++ has two answers, and Java only one
    have hone : (table.above col "$1").length ≤ 1 := by
      by_contra htwo
      obtain ⟨rows, rows', hrows, hrows', hne⟩ :=
        choice_of_two (n := count.toInt.toNat) hn (show 2 ≤ (table.above col "$1").length by omega)
      have hfirst := (hagree _).mp ⟨rows, hrows, rfl⟩
      have hsecond := (hagree _).mp ⟨rows', hrows', rfl⟩
      exact hne (hfirst.trans hsecond.symm)
    have hself := (hagree _).mp ⟨_, List.Perm.refl (table.above col "$1"), rfl⟩
    rw [returns_of_le_one hn hone (List.Perm.refl _)] at hself
    exact ⟨above_eq_of_smallest hn hone hself.symm, hone⟩
  · rintro ⟨heq, hone⟩ names
    have hsmallest : table.smallest col (jdk.toLowerCase namePrefix) count.toInt.toNat =
        (table.above col "$1").map ObjectRow.name := by
      rw [LowerTable.smallest, ← heq, returns_of_le_one hn hone (List.mergeSort_perm _ _)]
    rw [hsmallest]
    constructor
    · rintro ⟨rows, hperm, rfl⟩
      rw [returns_of_le_one hn hone hperm]
    · rintro rfl
      exact ⟨_, List.Perm.refl _, by rw [returns_of_le_one hn hone (List.Perm.refl _)]⟩

/-! ## Two ordinary rows -/

/-- Code point order, as under the `C` collation. -/
def Collation.codePoints : Collation where
  le s t := decide (s ≤ t)
  trans s t u hst htu := by
    simp only [decide_eq_true_eq] at hst htu ⊢
    exact le_trans hst htu
  antisymm s t hst hts := by
    simp only [decide_eq_true_eq] at hst hts
    exact le_antisymm hst hts
  total s t := by
    simp only [Bool.or_eq_true, decide_eq_true_eq]
    exact le_total s t

def sampleRow (name : String) : ObjectRow where
  name := name
  typeId := 0
  lastTransaction := 0
  timeUpdated := ⟨0⟩
  updateCount := 0
  dateCreated := 0
  dbIdUpdated := 0
  versionInfo := 0
  sdbDiskMem := []
  mem := []
  nameLower := Jdk.ascii.toLowerCase name

def sampleTable : LowerTable Jdk.ascii where
  rows := [sampleRow "Alpha", sampleRow "Beta"]
  objectTypeidName := by decide
  objectLowerName := by decide
  objectName := by decide
  lower := by unfold LowerNames; decide

/-- With rows `Alpha` and `Beta` and the prefix `b`, C++ may answer both; Java
answers `Beta`. -/
theorem quoted_placeholder_ignores_prefix :
    Returns Collation.codePoints sampleTable (Repository.lookupAsync "b" 10) ["Alpha", "Beta"] ∧
      ¬ LookupsAgree Collation.codePoints sampleTable "b" ⟨10, by decide⟩ := by
  have hcpp : Returns Collation.codePoints sampleTable (Repository.lookupAsync "b" 10)
      ["Alpha", "Beta"] := by
    apply (returns_lookupAsync_iff (by decide)).mpr
    have habove : sampleTable.above Collation.codePoints "$1" =
        [sampleRow "Alpha", sampleRow "Beta"] := by decide
    refine ⟨[sampleRow "Alpha", sampleRow "Beta"], ?_, by decide⟩
    rw [habove]
  refine ⟨hcpp, ?_⟩
  intro hagree
  have hjava := (returns_lookup_iff (by decide)).mp ((hagree _).mp hcpp)
  have habove : sampleTable.above Collation.codePoints (Jdk.ascii.toLowerCase "b") =
      [sampleRow "Beta"] := by decide
  rw [LowerTable.smallest, habove, List.mergeSort_singleton] at hjava
  revert hjava
  decide

end AuroraSizing.Lookup

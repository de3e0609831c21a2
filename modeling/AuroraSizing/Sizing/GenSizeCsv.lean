import AuroraSizing.Foundation.Totals
import AuroraSizing.Foundation.While
import Mathlib.Algebra.Order.Group.Int
import Mathlib.Algebra.Ring.Int.Defs
import Mathlib.Data.List.Dedup
import Mathlib.Data.List.Sort

/-!
# The size generator

`GenSizeCsv.py` spreads the records of a bucket over sizes around its average. Whatever the
random draws are, the clamps on one draw leave between one record and all that are left, and
the last size takes the rest, so no record is lost and none is added. A number of the program
is an `int` or a `float`; only the counts have to be integers.
-/

namespace AuroraSizing.GenSizeCsv

open Foundation.Totals Foundation.While

variable {ν : Type}

/-- The arithmetic of the numbers, on which nothing here depends. -/
structure Arithmetic (ν : Type) where
  ofInt : ℤ → ν
  /-- A number and an `int`. -/
  add : ν → ℤ → ν

/-- `list(set(l))`: each element once, in whatever order. -/
structure SetOrder (ν : Type) where
  list : List ν → List ν
  nodup : ∀ l, (list l).Nodup
  mem : ∀ l a, a ∈ list l ↔ a ∈ l

/-- A row of the bucket CSV; its standard deviation only goes into the draws. -/
structure Bucket (ν : Type) where
  classId : ν
  averageSize : ν
  distinctSizesCount : ℤ
  peakRecordsCount : ℤ
  totalRecords : ℤ

/-- A bucket that says what it may. -/
structure Bucket.Valid (row : Bucket ν) : Prop where
  distinct : 2 ≤ row.distinctSizesCount
  peak : 1 ≤ row.peakRecordsCount
  total : row.peakRecordsCount ≤ row.totalRecords

/-- A row of a size CSV. -/
structure SizeInfo (ν : Type) where
  classId : ν
  size : ν
  count : ℤ
  deriving DecidableEq

/-- The rounded deviation and the rounded fill of one turn. -/
abbrev Draws := ℕ → ℤ × ℤ

/-! ## One draw -/

/-- The variables of the loop over one bucket, and how many turns have drawn. -/
structure Filling (ν : Type) where
  outputTable : List (ν × ℤ)
  excludes : List ν
  recordsToAdd : ℤ
  distinctsRemaining : ℤ
  drawn : ℕ

/-- What comes before the loop: the first size takes the peak. -/
def addPeak (row : Bucket ν) (asize : ν) (s : Filling ν) : Filling ν where
  outputTable := s.outputTable ++ [(asize, row.peakRecordsCount)]
  excludes := asize :: s.excludes
  recordsToAdd := row.totalRecords - row.peakRecordsCount
  distinctsRemaining := row.distinctSizesCount - 1
  drawn := s.drawn

/-- `cy` -/
def clamp (row : Bucket ν) (s : Filling ν) (fill : ℤ) : ℤ :=
  if 1 < s.distinctsRemaining then
    max 1 (min (min fill row.peakRecordsCount) (s.recordsToAdd - s.distinctsRemaining + 1))
  else s.recordsToAdd

def addedRecords (outputTable : List (ν × ℤ)) : ℤ := (outputTable.map Prod.snd).sum

theorem addedRecords_append (outputTable : List (ν × ℤ)) (x : ν × ℤ) :
    addedRecords (outputTable ++ [x]) = addedRecords outputTable + x.2 := by
  simp [addedRecords]

/-- What the loop over one bucket keeps. -/
structure Filling.Ok (target : ℤ) (s : Filling ν) : Prop where
  records : 0 ≤ s.recordsToAdd
  distincts : 0 ≤ s.distinctsRemaining
  /-- The last size takes the rest. -/
  last : s.distinctsRemaining = 0 → s.recordsToAdd = 0
  conserved : addedRecords s.outputTable + s.recordsToAdd = target
  positive : ∀ x ∈ s.outputTable, 1 ≤ x.2

/-- The loop is over when its records are, as the sizes only run out with them. -/
theorem Filling.Ok.over {target : ℤ} {s : Filling ν} (h : s.Ok target)
    (hover : ¬ (0 < s.recordsToAdd ∧ 0 < s.distinctsRemaining)) : s.recordsToAdd = 0 := by
  have hrecords := h.records
  have hdistincts := h.distincts
  by_cases hzero : s.distinctsRemaining = 0
  · exact h.last hzero
  · omega

theorem addPeak_ok {row : Bucket ν} (hrow : row.Valid) (asize : ν) {s : Filling ν}
    (hpos : ∀ x ∈ s.outputTable, 1 ≤ x.2) :
    (addPeak row asize s).Ok (addedRecords s.outputTable + row.totalRecords) := by
  have hdistinct := hrow.distinct
  have hpeak := hrow.peak
  have htotal := hrow.total
  refine ⟨?_, ?_, ?_, ?_, ?_⟩
  · show 0 ≤ row.totalRecords - row.peakRecordsCount
    omega
  · show 0 ≤ row.distinctSizesCount - 1
    omega
  · intro hzero
    have : row.distinctSizesCount - 1 = 0 := hzero
    omega
  · show addedRecords (s.outputTable ++ [_]) + (row.totalRecords - row.peakRecordsCount) = _
    rw [addedRecords_append]
    omega
  · intro x hx
    rcases List.mem_append.mp hx with hx | hx
    · exact hpos x hx
    · rw [List.mem_singleton] at hx
      rw [hx]
      exact hpeak

theorem one_le_clamp {row : Bucket ν} {s : Filling ν} (hrecords : 0 < s.recordsToAdd) (fill : ℤ) :
    1 ≤ clamp row s fill := by
  rw [clamp]
  split
  · exact le_max_left ..
  · exact hrecords

/-- Where fewer records than sizes are left, one is still there to take. -/
theorem clamp_le {row : Bucket ν} {s : Filling ν} (hrecords : 0 < s.recordsToAdd) (fill : ℤ) :
    clamp row s fill ≤ s.recordsToAdd := by
  rw [clamp]
  split
  case isTrue hmore =>
    have hmin : min (min fill row.peakRecordsCount) (s.recordsToAdd - s.distinctsRemaining + 1) ≤
        s.recordsToAdd - s.distinctsRemaining + 1 := min_le_right ..
    refine max_le ?_ ?_
    · omega
    · omega
  case isFalse => exact le_refl _

theorem clamp_last {row : Bucket ν} {s : Filling ν} (hlast : s.distinctsRemaining = 1)
    (fill : ℤ) : clamp row s fill = s.recordsToAdd := by
  rw [clamp, if_neg (by omega)]

/-- There stay as many records as sizes. -/
theorem clamp_leaves {row : Bucket ν} {s : Filling ν}
    (hrecords : s.distinctsRemaining ≤ s.recordsToAdd) (hdistincts : 0 < s.distinctsRemaining)
    (fill : ℤ) :
    s.distinctsRemaining - 1 ≤ s.recordsToAdd - clamp row s fill := by
  rw [clamp]
  split
  case isTrue hmore =>
    have hmin : min (min fill row.peakRecordsCount) (s.recordsToAdd - s.distinctsRemaining + 1) ≤
        s.recordsToAdd - s.distinctsRemaining + 1 := min_le_right ..
    have hmax : max 1 (min (min fill row.peakRecordsCount)
        (s.recordsToAdd - s.distinctsRemaining + 1)) ≤
          s.recordsToAdd - s.distinctsRemaining + 1 := by
      refine max_le ?_ hmin
      omega
    omega
  case isFalse hlast => omega

/-! ## The sizes of the buckets -/

variable [LinearOrder ν]

def maxSizeAllowed (arith : Arithmetic ν) (classId : ν) : ν :=
  if classId ≠ arith.ofInt 4020 then arith.ofInt 32711 else arith.ofInt 10000000

/-- One turn of the loop. -/
def addSize (arith : Arithmetic ν) (fuel : ℕ) (draws : Draws) (maxSize : ν) (row : Bucket ν)
    (s : Filling ν) : Option (Filling ν) :=
  let draw := draws s.drawn
  let cx := arith.add row.averageSize draw.1
  if cx < arith.ofInt 1 ∨ maxSize < cx then
    -- `continue`
    some { s with drawn := s.drawn + 1 }
  else do
    let cx ← whileLoop (fun cx => cx ∈ s.excludes ∧ cx < maxSize)
      (fun cx => some (arith.add cx 1)) fuel cx
    let cy := clamp row s draw.2
    return { outputTable := s.outputTable ++ [(cx, cy)]
             excludes := cx :: s.excludes
             recordsToAdd := s.recordsToAdd - cy
             distinctsRemaining := s.distinctsRemaining - 1
             drawn := s.drawn + 1 }

/-- The body of the loop over `bucketTable`. -/
def addBucket (arith : Arithmetic ν) (fuel : ℕ) (draws : Draws) (maxSize : ν) (s : Filling ν)
    (row : Bucket ν) : Option (Filling ν) := do
  let asize ← whileLoop (fun asize => asize ∈ s.excludes)
    (fun asize => some (arith.add asize 1)) fuel row.averageSize
  -- `recordsToAdd / distinctsRemaining`
  if row.distinctSizesCount - 1 = 0 then none
  else
    whileLoop (fun s => 0 < s.recordsToAdd ∧ 0 < s.distinctsRemaining)
      (addSize arith fuel draws maxSize row) fuel (addPeak row asize s)

def convertBucketToSizes (arith : Arithmetic ν) (fuel : ℕ) (draws : Draws)
    (bucketTable : List (Bucket ν)) (excludes : List ν) (maxSize : ν) : Option (List (ν × ℤ)) := do
  let s ← bucketTable.foldlM (addBucket arith fuel draws maxSize) ⟨[], excludes, 0, 0, 0⟩
  return s.outputTable

variable {arith : Arithmetic ν} {fuel : ℕ} {draws : Draws} {maxSize : ν} {row : Bucket ν}
  {target : ℤ} {s t : Filling ν}

/-- A turn passes over the draw, or it adds a size. -/
theorem addSize_cases (h : addSize arith fuel draws maxSize row s = some t) :
    t = { s with drawn := s.drawn + 1 } ∨
    ∃ cx, t = { outputTable := s.outputTable ++ [(cx, clamp row s (draws s.drawn).2)]
                excludes := cx :: s.excludes
                recordsToAdd := s.recordsToAdd - clamp row s (draws s.drawn).2
                distinctsRemaining := s.distinctsRemaining - 1
                drawn := s.drawn + 1 } := by
  rw [addSize] at h
  split at h
  case isTrue =>
    cases h
    exact Or.inl rfl
  case isFalse =>
    obtain ⟨cx, -, h⟩ := Option.bind_eq_some_iff.mp h
    cases h
    exact Or.inr ⟨cx, rfl⟩

theorem addSize_ok (hs : s.Ok target) (hrecords : 0 < s.recordsToAdd)
    (hdistincts : 0 < s.distinctsRemaining)
    (h : addSize arith fuel draws maxSize row s = some t) : t.Ok target := by
  rcases addSize_cases h with rfl | ⟨cx, rfl⟩
  · exact ⟨hs.records, hs.distincts, hs.last, hs.conserved, hs.positive⟩
  · have hone : 1 ≤ clamp row s (draws s.drawn).2 := one_le_clamp hrecords _
    have hle : clamp row s (draws s.drawn).2 ≤ s.recordsToAdd := clamp_le hrecords _
    refine ⟨?_, ?_, ?_, ?_, ?_⟩
    · show 0 ≤ s.recordsToAdd - _
      omega
    · show 0 ≤ s.distinctsRemaining - 1
      omega
    · intro hzero
      have hlast : s.distinctsRemaining = 1 := by
        have : s.distinctsRemaining - 1 = 0 := hzero
        omega
      show s.recordsToAdd - _ = 0
      rw [clamp_last hlast, sub_self]
    · have hconserved := hs.conserved
      show addedRecords (s.outputTable ++ [_]) + (s.recordsToAdd - _) = target
      rw [addedRecords_append]
      show addedRecords s.outputTable + clamp row s _ + (s.recordsToAdd - clamp row s _) = target
      omega
    · intro x hx
      rcases List.mem_append.mp hx with hx | hx
      · exact hs.positive x hx
      · rw [List.mem_singleton] at hx
        rw [hx]
        exact hone

/-- The loop of a bucket that gets through. -/
theorem addBucket_eq_some_iff :
    addBucket arith fuel draws maxSize s row = some t ↔
      row.distinctSizesCount - 1 ≠ 0 ∧ ∃ asize,
        whileLoop (fun asize => asize ∈ s.excludes) (fun asize => some (arith.add asize 1)) fuel
          row.averageSize = some asize ∧
        whileLoop (fun s => 0 < s.recordsToAdd ∧ 0 < s.distinctsRemaining)
          (addSize arith fuel draws maxSize row) fuel (addPeak row asize s) = some t := by
  rw [addBucket]
  refine Option.bind_eq_some_iff.trans ?_
  by_cases hdivisor : row.distinctSizesCount - 1 = 0
  · simp [hdivisor]
  · simp [hdivisor]

/-- **A bucket adds its records**, and no empty size. -/
theorem addBucket_spec (hrow : row.Valid) (hpos : ∀ x ∈ s.outputTable, 1 ≤ x.2)
    (h : addBucket arith fuel draws maxSize s row = some t) :
    addedRecords t.outputTable = addedRecords s.outputTable + row.totalRecords ∧
      ∀ x ∈ t.outputTable, 1 ≤ x.2 := by
  obtain ⟨-, asize, -, h⟩ := addBucket_eq_some_iff.mp h
  have hturn : ∀ u v : Filling ν, u.Ok (addedRecords s.outputTable + row.totalRecords) →
      decide (0 < u.recordsToAdd ∧ 0 < u.distinctsRemaining) = true →
      addSize arith fuel draws maxSize row u = some v →
      v.Ok (addedRecords s.outputTable + row.totalRecords) := by
    intro u v hu hcond hbody
    obtain ⟨hrecords, hdistincts⟩ := of_decide_eq_true hcond
    exact addSize_ok hu hrecords hdistincts hbody
  obtain ⟨hok, hover⟩ := whileLoop_spec hturn (addPeak_ok hrow asize hpos) h
  have hconserved := hok.conserved
  rw [hok.over (of_decide_eq_false hover), add_zero] at hconserved
  exact ⟨hconserved, hok.positive⟩

/-- **The buckets of a class give their records** whatever is drawn. -/
theorem convertBucketToSizes_spec {bucketTable : List (Bucket ν)} {excludes : List ν}
    {outputTable : List (ν × ℤ)} (hvalid : ∀ row ∈ bucketTable, row.Valid)
    (h : convertBucketToSizes arith fuel draws bucketTable excludes maxSize = some outputTable) :
    addedRecords outputTable = (bucketTable.map Bucket.totalRecords).sum ∧
      ∀ x ∈ outputTable, 1 ≤ x.2 := by
  have hfold : ∀ (rows : List (Bucket ν)) (s t : Filling ν), (∀ row ∈ rows, row.Valid) →
      (∀ x ∈ s.outputTable, 1 ≤ x.2) →
      rows.foldlM (addBucket arith fuel draws maxSize) s = some t →
      addedRecords t.outputTable =
          addedRecords s.outputTable + (rows.map Bucket.totalRecords).sum ∧
        ∀ x ∈ t.outputTable, 1 ≤ x.2 := by
    intro rows
    induction rows with
    | nil =>
        intro s t _ hpos h
        cases h
        exact ⟨by simp, hpos⟩
    | cons row rows ih =>
        intro s t hvalid hpos h
        rw [List.foldlM_cons] at h
        obtain ⟨u, hu, h⟩ := Option.bind_eq_some_iff.mp h
        obtain ⟨hrow, hrows⟩ := List.forall_mem_cons.mp hvalid
        obtain ⟨hadded, hpos⟩ := addBucket_spec hrow hpos hu
        obtain ⟨hrest, hpos⟩ := ih u t hrows hpos h
        refine ⟨?_, hpos⟩
        rw [hrest, hadded, List.map_cons, List.sum_cons, add_assoc]
  rw [convertBucketToSizes] at h
  obtain ⟨t, ht, h⟩ := Option.bind_eq_some_iff.mp h
  cases h
  obtain ⟨hadded, hpos⟩ := hfold bucketTable _ t hvalid (fun x hx => by cases hx) ht
  refine ⟨?_, hpos⟩
  rw [hadded]
  exact zero_add _

/-! ## The final table -/

def xvals (sets : SetOrder ν) (combinedSizes : List (ν × ℤ)) : List ν :=
  (sets.list (combinedSizes.map Prod.fst)).insertionSort (· ≤ ·)

def combineSizes (sets : SetOrder ν) (bucketGeneratedSizes : List (ν × ℤ))
    (initialSizeTable : List (SizeInfo ν)) : List (ν × ℤ) :=
  let combinedSizes := initialSizeTable.map (fun x => (x.size, x.count)) ++ bucketGeneratedSizes
  (xvals sets combinedSizes).map fun x => (x, totalAt Prod.fst Prod.snd combinedSizes x)

def getClasses (sets : SetOrder ν) (bucketTable : List (Bucket ν))
    (initialSizeTable : List (SizeInfo ν)) : List ν :=
  sets.list (sets.list (bucketTable.map Bucket.classId) ++
    sets.list (initialSizeTable.map SizeInfo.classId))

def getClassTable (bucketTable : List (Bucket ν)) (initialSizeTable : List (SizeInfo ν))
    (classId : ν) : List (Bucket ν) × List (SizeInfo ν) :=
  (bucketTable.filter fun x => x.classId = classId,
    initialSizeTable.filter fun x => x.classId = classId)

/-- The rows of one class. -/
def sizesForClass (arith : Arithmetic ν) (sets : SetOrder ν) (fuel : ℕ) (draws : ν → Draws)
    (bucketTable : List (Bucket ν)) (initialSizeTable : List (SizeInfo ν)) (classId : ν) :
    Option (List (SizeInfo ν)) := do
  let (cBucket, cInitial) := getClassTable bucketTable initialSizeTable classId
  let bucketGeneratedSizes ← convertBucketToSizes arith fuel (draws classId) cBucket
    (sets.list (initialSizeTable.map SizeInfo.size)) (maxSizeAllowed arith classId)
  return (combineSizes sets bucketGeneratedSizes cInitial).map fun x => ⟨classId, x.1, x.2⟩

/-- `main`, up to `writeOutput`: `none` is a loop that is not over after `fuel` turns, or an
exception. -/
def main (arith : Arithmetic ν) (sets : SetOrder ν) (fuel : ℕ) (draws : ν → Draws)
    (bucketTable : List (Bucket ν)) (initialSizeTable : List (SizeInfo ν)) :
    Option (List (SizeInfo ν)) := do
  let tables ← (getClasses sets bucketTable initialSizeTable).mapM
    (sizesForClass arith sets fuel draws bucketTable initialSizeTable)
  return tables.flatten

/-- What the generator is for. -/
structure Conserves (bucketTable : List (Bucket ν)) (initialSizeTable : List (SizeInfo ν))
    (finalSizes : List (SizeInfo ν)) : Prop where
  total : ∀ classId, totalAt SizeInfo.classId SizeInfo.count finalSizes classId =
    totalAt SizeInfo.classId SizeInfo.count initialSizeTable classId +
      totalAt Bucket.classId Bucket.totalRecords bucketTable classId
  increasing : ∀ classId,
    ((finalSizes.filter fun x => x.classId = classId).map SizeInfo.size).Pairwise (· < ·)
  distinct : (finalSizes.map fun x => (x.classId, x.size)).Nodup
  positive : ∀ x ∈ finalSizes, 1 ≤ x.count

variable {sets : SetOrder ν} {bucketGeneratedSizes : List (ν × ℤ)} {bucketTable : List (Bucket ν)}
  {initialSizeTable finalSizes : List (SizeInfo ν)}

theorem mem_xvals {combinedSizes : List (ν × ℤ)} {x : ν} :
    x ∈ xvals sets combinedSizes ↔ ∃ cs ∈ combinedSizes, cs.1 = x := by
  rw [xvals, List.mem_insertionSort, sets.mem, List.mem_map]

theorem xvals_nodup (combinedSizes : List (ν × ℤ)) :
    (xvals sets combinedSizes).Nodup :=
  (List.perm_insertionSort _ _).nodup_iff.mpr (sets.nodup _)

theorem xvals_increasing (combinedSizes : List (ν × ℤ)) :
    (xvals sets combinedSizes).Pairwise (· < ·) := by
  have hsorted : (xvals sets combinedSizes).Pairwise (· ≤ ·) :=
    List.pairwise_insertionSort (· ≤ ·) _
  refine (hsorted.and (xvals_nodup combinedSizes)).imp ?_
  rintro a b ⟨hle, hne⟩
  exact lt_of_le_of_ne hle hne

theorem combineSizes_increasing :
    ((combineSizes sets bucketGeneratedSizes initialSizeTable).map Prod.fst).Pairwise
      (· < ·) := by
  have hkeys : (combineSizes sets bucketGeneratedSizes initialSizeTable).map Prod.fst =
      xvals sets
        (initialSizeTable.map (fun x => (x.size, x.count)) ++ bucketGeneratedSizes) := by
    rw [combineSizes, List.map_map]
    exact List.map_id _
  rw [hkeys]
  exact xvals_increasing _

/-- **Adding sizes up loses no record.** -/
theorem addedRecords_combineSizes :
    addedRecords (combineSizes sets bucketGeneratedSizes initialSizeTable) =
      (initialSizeTable.map SizeInfo.count).sum + addedRecords bucketGeneratedSizes := by
  rw [addedRecords, combineSizes, List.map_map]
  refine (sum_totalAt (xvals_nodup _) fun cs hcs => ?_).trans ?_
  · exact mem_xvals.mpr ⟨cs, hcs, rfl⟩
  · rw [List.map_append, List.sum_append, List.map_map]
    rfl

theorem one_le_combineSizes (hinitial : ∀ x ∈ initialSizeTable, 1 ≤ x.count)
    (hbuckets : ∀ x ∈ bucketGeneratedSizes, 1 ≤ x.2) {x : ν × ℤ}
    (hx : x ∈ combineSizes sets bucketGeneratedSizes initialSizeTable) : 1 ≤ x.2 := by
  have hone : ∀ cs ∈ initialSizeTable.map (fun x => (x.size, x.count)) ++ bucketGeneratedSizes,
      1 ≤ cs.2 := by
    intro cs hcs
    rcases List.mem_append.mp hcs with hcs | hcs
    · obtain ⟨y, hy, rfl⟩ := List.mem_map.mp hcs
      exact hinitial y hy
    · exact hbuckets cs hcs
  obtain ⟨k, hk, rfl⟩ := List.mem_map.mp hx
  obtain ⟨cs, hcs, rfl⟩ := mem_xvals.mp hk
  refine le_trans (hone cs hcs) (le_totalAt (fun r hr => ?_) hcs)
  exact le_trans zero_le_one (hone r hr)

/-! ## The classes -/

variable {classIdDraws : ν → Draws} {classId : ν}

omit [LinearOrder ν] in
theorem mem_getClasses :
    classId ∈ getClasses sets bucketTable initialSizeTable ↔
      (∃ row ∈ bucketTable, row.classId = classId) ∨
        ∃ x ∈ initialSizeTable, x.classId = classId := by
  simp only [getClasses, sets.mem, List.mem_append, List.mem_map]

/-- What one class gets. -/
theorem sizesForClass_spec {sizesForThisClass : List (SizeInfo ν)}
    (hvalid : ∀ row ∈ bucketTable, row.Valid) (hinitial : ∀ x ∈ initialSizeTable, 1 ≤ x.count)
    (h : sizesForClass arith sets fuel classIdDraws bucketTable initialSizeTable classId =
      some sizesForThisClass) :
    (∀ x ∈ sizesForThisClass, x.classId = classId ∧ 1 ≤ x.count) ∧
      (sizesForThisClass.map SizeInfo.size).Pairwise (· < ·) ∧
      (sizesForThisClass.map SizeInfo.count).sum =
        totalAt SizeInfo.classId SizeInfo.count initialSizeTable classId +
          totalAt Bucket.classId Bucket.totalRecords bucketTable classId := by
  rw [sizesForClass] at h
  obtain ⟨bucketGeneratedSizes, hgenerated, h⟩ := Option.bind_eq_some_iff.mp h
  cases h
  obtain ⟨hadded, hone⟩ := convertBucketToSizes_spec
    (fun row hrow => hvalid row (List.mem_filter.mp hrow).1) hgenerated
  refine ⟨?_, ?_, ?_⟩
  · intro x hx
    obtain ⟨y, hy, rfl⟩ := List.mem_map.mp hx
    refine ⟨rfl, one_le_combineSizes (fun z hz => ?_) hone hy⟩
    exact hinitial z (List.mem_filter.mp hz).1
  · rw [List.map_map]
    exact combineSizes_increasing
  · rw [List.map_map]
    show addedRecords _ = _
    rw [addedRecords_combineSizes, hadded]
    rfl

theorem increasing_distinct
    (h : ∀ classId,
      ((finalSizes.filter fun x => x.classId = classId).map SizeInfo.size).Pairwise (· < ·)) :
    (finalSizes.map fun x => (x.classId, x.size)).Nodup := by
  rw [List.Nodup, List.pairwise_map, List.pairwise_iff_forall_sublist]
  intro a b hab heq
  obtain ⟨hclass, hsize⟩ := Prod.mk.inj heq
  have hrow : ([a, b].filter fun x => x.classId = a.classId) = [a, b] := by
    simp [hclass]
  have hsub := (hab.filter fun x => x.classId = a.classId).map SizeInfo.size
  rw [hrow] at hsub
  have hlt := (h a.classId).sublist hsub
  rw [List.map_cons, List.map_cons, List.map_nil, List.pairwise_pair] at hlt
  exact absurd hsize (ne_of_lt hlt)

/-- **Records are conserved**, class by class, whatever was drawn. -/
theorem main_conserves (arith : Arithmetic ν) (sets : SetOrder ν) (fuel : ℕ) (draws : ν → Draws)
    (bucketTable : List (Bucket ν)) (initialSizeTable finalSizes : List (SizeInfo ν))
    (hvalid : ∀ row ∈ bucketTable, row.Valid) (hinitial : ∀ x ∈ initialSizeTable, 1 ≤ x.count)
    (h : main arith sets fuel draws bucketTable initialSizeTable = some finalSizes) :
    Conserves bucketTable initialSizeTable finalSizes := by
  rw [main] at h
  obtain ⟨tables, htables, h⟩ := Option.bind_eq_some_iff.mp h
  cases h
  have hmake : ∀ classId table,
      sizesForClass arith sets fuel draws bucketTable initialSizeTable classId = some table →
      ∀ x ∈ table, x.classId = classId := by
    intro classId table htable x hx
    exact ((sizesForClass_spec hvalid hinitial htable).1 x hx).1
  have hclasses : (getClasses sets bucketTable initialSizeTable).Nodup := sets.nodup _
  have hother : ∀ classId ∉ getClasses sets bucketTable initialSizeTable,
      ∀ x ∈ tables.flatten, x.classId ≠ classId := by
    intro classId hclass x hx heq
    exact hclass (heq ▸ (key_mem_of_mapM hmake htables hx).1)
  have hincreasing : ∀ classId,
      ((tables.flatten.filter fun x => x.classId = classId).map SizeInfo.size).Pairwise
        (· < ·) := by
    intro classId
    by_cases hclass : classId ∈ getClasses sets bucketTable initialSizeTable
    · have hown := make_eq_filter hmake hclasses htables hclass
      exact (sizesForClass_spec hvalid hinitial hown).2.1
    · have hnone : tables.flatten.filter (fun x => x.classId = classId) = [] := by
        rw [List.filter_eq_nil_iff]
        intro x hx
        simpa using hother classId hclass x hx
      rw [hnone]
      exact List.Pairwise.nil
  refine ⟨fun classId => ?_, hincreasing, increasing_distinct hincreasing, fun x hx => ?_⟩
  · by_cases hclass : classId ∈ getClasses sets bucketTable initialSizeTable
    · have hown := make_eq_filter hmake hclasses htables hclass
      exact (sizesForClass_spec hvalid hinitial hown).2.2
    · rw [totalAt_eq_zero (hother classId hclass), totalAt_eq_zero, totalAt_eq_zero, add_zero]
      · intro row hrow heq
        exact hclass (mem_getClasses.mpr (Or.inl ⟨row, hrow, heq⟩))
      · intro x hx heq
        exact hclass (mem_getClasses.mpr (Or.inr ⟨x, hx, heq⟩))
  · obtain ⟨-, table, htable, hmem⟩ := key_mem_of_mapM hmake htables hx
    exact ((sizesForClass_spec hvalid hinitial htable).1 x hmem).2

def sampleArithmetic : Arithmetic ℤ := ⟨id, (· + ·)⟩

def sampleSets : SetOrder ℤ := ⟨List.dedup, List.nodup_dedup, fun _ _ => List.mem_dedup⟩

/-- The second bucket has fewer records than sizes. -/
def sampleBuckets : List (Bucket ℤ) := [⟨1, 5, 3, 4, 9⟩, ⟨1, 6, 4, 2, 3⟩]

def sampleInitial : List (SizeInfo ℤ) := [⟨1, 5, 2⟩, ⟨2, 5, 1⟩]

theorem sample_conserves :
    Conserves sampleBuckets sampleInitial
      [⟨1, 5, 2⟩, ⟨1, 6, 4⟩, ⟨1, 7, 3⟩, ⟨1, 8, 2⟩, ⟨1, 9, 2⟩, ⟨1, 10, 1⟩, ⟨2, 5, 1⟩] := by
  refine main_conserves sampleArithmetic sampleSets 9 (fun _ _ => (1, 3)) sampleBuckets
    sampleInitial _ ?_ ?_ ?_
  · rintro row (_ | ⟨_, _ | ⟨_, ⟨⟩⟩⟩)
    · exact ⟨by decide, by decide, by decide⟩
    · exact ⟨by decide, by decide, by decide⟩
  · decide
  · decide +kernel

end AuroraSizing.GenSizeCsv

import AuroraSizing.Foundation.Rounding
import AuroraSizing.Sizing.GenSizeCsv

/-!
# The peak of a bucket

The records of a bucket are spread at random over its sizes, each of which is meant to stay below
the peak. A fill is capped at the peak, but the last size takes what is left, and that is most
when every fill before it is as small as it can be. So the peak holds for all draws exactly when
it holds for the smallest fills.
-/

namespace AuroraSizing.PeakCap

open GenSizeCsv Foundation.Rounding Foundation.While

variable {ν : Type}

/-- The rounded deviation of one turn and its `random.random()`. -/
abbrev RandomDraws := ℕ → ℤ × ℚ

def avgFill (floats : Floats) (row : Bucket ν) : ℚ :=
  floats.fl (((row.totalRecords - row.peakRecordsCount : ℤ) : ℚ) /
    ((row.distinctSizesCount - 1 : ℤ) : ℚ))

/-- `round( ( avgFill + 2*random.random()*avgFill )/2 )` -/
def fill (floats : Floats) (avgFill random : ℚ) : ℤ :=
  roundEven (floats.fl (floats.fl (avgFill + floats.fl (floats.fl (2 * random) * avgFill)) / 2))

/-- The draws as one bucket sees them. -/
def rowDraws (floats : Floats) (draws : RandomDraws) (row : Bucket ν) : Draws := fun i =>
  ((draws i).1, fill floats (avgFill floats row) (draws i).2)

/-- `random.random()` is in `[0, 1)`. -/
def InRange (draws : RandomDraws) : Prop := ∀ i, 0 ≤ (draws i).2 ∧ (draws i).2 < 1

/-- A bucket whose records fit below its peak. -/
structure Promising (row : Bucket ν) : Prop where
  distinct : 2 ≤ row.distinctSizesCount
  peak : 1 ≤ row.peakRecordsCount
  records : row.distinctSizesCount - 1 ≤ row.totalRecords - row.peakRecordsCount
  fits : row.totalRecords - row.peakRecordsCount ≤
    (row.distinctSizesCount - 1) * row.peakRecordsCount

/-- What one size takes when the draw is as small as it can be. -/
def leastFill (floats : Floats) (row : Bucket ν) : ℤ :=
  max 1 (min (roundEven (floats.fl (avgFill floats row / 2))) row.peakRecordsCount)

/-! ## One fill -/

variable {floats : Floats} {row : Bucket ν} {s s' t : Filling ν}

theorem fill_zero (floats : Floats) (row : Bucket ν) :
    fill floats (avgFill floats row) 0 = roundEven (floats.fl (avgFill floats row / 2)) := by
  rw [fill, mul_zero, floats.zero, zero_mul, floats.zero, add_zero, avgFill, floats.idem]

theorem fill_zero_le (hrow : Promising row) {random : ℚ} (hrandom : 0 ≤ random) :
    fill floats (avgFill floats row) 0 ≤ fill floats (avgFill floats row) random := by
  have hpeak := hrow.records
  have hdistinct := hrow.distinct
  have hrecords : (0 : ℚ) ≤ ((row.totalRecords - row.peakRecordsCount : ℤ) : ℚ) :=
    Int.cast_nonneg (by omega)
  have hdivisor : (0 : ℚ) ≤ ((row.distinctSizesCount - 1 : ℤ) : ℚ) := Int.cast_nonneg (by omega)
  have havg : 0 ≤ avgFill floats row := floats.fl_nonneg (div_nonneg hrecords hdivisor)
  have hspread : 0 ≤ floats.fl (floats.fl (2 * random) * avgFill floats row) :=
    floats.fl_nonneg (mul_nonneg (floats.fl_nonneg (by linarith)) havg)
  rw [fill_zero, fill]
  refine roundEven_le (floats.mono ?_)
  have hsum := floats.fl_le_fl_add (((row.totalRecords - row.peakRecordsCount : ℤ) : ℚ) /
    ((row.distinctSizesCount - 1 : ℤ) : ℚ)) hspread
  change avgFill floats row ≤ floats.fl (avgFill floats row + _) at hsum
  linarith

theorem one_le_leastFill : 1 ≤ leastFill floats row := le_max_left ..

theorem leastFill_le (hrow : Promising row) : leastFill floats row ≤ row.peakRecordsCount :=
  max_le hrow.peak (min_le_right ..)

theorem clamp_le_peak (hrow : Promising row) (hmore : 1 < s.distinctsRemaining) (fill : ℤ) :
    clamp row s fill ≤ row.peakRecordsCount := by
  rw [clamp, if_pos hmore]
  exact max_le hrow.peak (le_trans (min_le_left ..) (min_le_right ..))

/-- A size that takes less than the least fill leaves one record for each of the others. -/
theorem leastFill_le_clamp (hmore : 1 < s.distinctsRemaining)
    (hrecords : s.distinctsRemaining ≤ s.recordsToAdd) {fill : ℤ}
    (hfill : roundEven (floats.fl (avgFill floats row / 2)) ≤ fill) :
    leastFill floats row ≤ clamp row s fill ∨
      s.recordsToAdd - clamp row s fill = s.distinctsRemaining - 1 := by
  rw [clamp, if_pos hmore]
  rcases le_total (min fill row.peakRecordsCount) (s.recordsToAdd - s.distinctsRemaining + 1) with
    hcap | hcap
  · rw [min_eq_left hcap]
    exact Or.inl (max_le_max (le_refl _) (min_le_min_right _ hfill))
  · rw [min_eq_right hcap, max_eq_right (by omega)]
    exact Or.inr (by omega)

theorem clamp_le_leastFill (hmore : 1 < s.distinctsRemaining) :
    clamp row s (roundEven (floats.fl (avgFill floats row / 2))) ≤ leastFill floats row := by
  rw [clamp, if_pos hmore]
  exact max_le_max (le_refl _) (min_le_left ..)

/-- The rows of the bucket so far are below its peak, and the last one will be. -/
structure Held (floats : Floats) (row : Bucket ν) (before : List (ν × ℤ)) (s : Filling ν) :
    Prop where
  records : s.distinctsRemaining ≤ s.recordsToAdd
  left : s.recordsToAdd - (s.distinctsRemaining - 1) * leastFill floats row ≤ row.peakRecordsCount
  table : ∃ added, s.outputTable = before ++ added ∧ ∀ x ∈ added, x.2 ≤ row.peakRecordsCount

/-- The next row is below the peak, the last one by what is left. -/
theorem Held.clamp_le {before : List (ν × ℤ)} (hrow : Promising row)
    (hs : Held floats row before s) (hdistincts : 0 < s.distinctsRemaining) (fill : ℤ) :
    clamp row s fill ≤ row.peakRecordsCount := by
  by_cases hmore : 1 < s.distinctsRemaining
  · exact clamp_le_peak hrow hmore fill
  · have hlast : s.distinctsRemaining = 1 := by omega
    have hleft := hs.left
    rw [hlast] at hleft
    rw [clamp_last hlast]
    omega

theorem Held.left_clamp {before : List (ν × ℤ)} (hrow : Promising row)
    (hs : Held floats row before s) (hdistincts : 0 < s.distinctsRemaining) {fill : ℤ}
    (hfill : roundEven (floats.fl (avgFill floats row / 2)) ≤ fill) :
    s.recordsToAdd - clamp row s fill - (s.distinctsRemaining - 1 - 1) * leastFill floats row ≤
      row.peakRecordsCount := by
  have hleft := hs.left
  have hpeak := hrow.peak
  by_cases hmore : 1 < s.distinctsRemaining
  · have hsplit : (s.distinctsRemaining - 1) * leastFill floats row =
        (s.distinctsRemaining - 1 - 1) * leastFill floats row + leastFill floats row := by ring
    rcases leastFill_le_clamp hmore hs.records hfill with hclamp | hclamp
    · omega
    · have hrest : s.distinctsRemaining - 1 - 1 ≤
          (s.distinctsRemaining - 1 - 1) * leastFill floats row :=
        le_mul_of_one_le_right (by omega) one_le_leastFill
      omega
  · have hlast : s.distinctsRemaining = 1 := by omega
    have hleast : leastFill floats row ≤ _ := leastFill_le hrow
    rw [clamp_last hlast, hlast]
    omega

/-- The last row of the bucket takes `least` records or more. -/
structure Reaches (floats : Floats) (row : Bucket ν) (least : ℤ) (before : List (ν × ℤ))
    (s : Filling ν) : Prop where
  records : s.distinctsRemaining ≤ s.recordsToAdd
  left : 0 < s.distinctsRemaining →
    least ≤ s.recordsToAdd - (s.distinctsRemaining - 1) * leastFill floats row
  table : ∃ added, s.outputTable = before ++ added ∧
    (s.distinctsRemaining ≤ 0 → ∃ x ∈ added, least ≤ x.2)

/-- Two runs over one bucket that differ in the rows they have added. With other fills the records
may differ too, as long as there is one for each size. -/
structure Beside (other : Prop) (s s' : Filling ν) : Prop where
  excludes : s.excludes = s'.excludes
  distincts : s.distinctsRemaining = s'.distinctsRemaining
  drawn : s.drawn = s'.drawn
  same : ¬ other → s.recordsToAdd = s'.recordsToAdd
  enough : other → s.distinctsRemaining ≤ s.recordsToAdd ∧ s.distinctsRemaining ≤ s'.recordsToAdd

theorem Beside.cond {other : Prop} (h : Beside other s s') :
    decide (0 < s.recordsToAdd ∧ 0 < s.distinctsRemaining) =
      decide (0 < s'.recordsToAdd ∧ 0 < s'.distinctsRemaining) := by
  have hdistincts := h.distincts
  rw [decide_eq_decide]
  by_cases hother : other
  · obtain ⟨henough, henough'⟩ := h.enough hother
    omega
  · have hsame := h.same hother
    omega

/-! ## The runs -/

variable [LinearOrder ν]

def addBucket (arith : Arithmetic ν) (floats : Floats) (fuel : ℕ) (draws : RandomDraws)
    (maxSize : ν) (s : Filling ν) (row : Bucket ν) : Option (Filling ν) :=
  GenSizeCsv.addBucket arith fuel (rowDraws floats draws row) maxSize s row

def convertBucketToSizes (arith : Arithmetic ν) (floats : Floats) (fuel : ℕ) (draws : RandomDraws)
    (bucketTable : List (Bucket ν)) (excludes : List ν) (maxSize : ν) : Option (List (ν × ℤ)) := do
  let s ← bucketTable.foldlM (addBucket arith floats fuel draws maxSize) ⟨[], excludes, 0, 0, 0⟩
  return s.outputTable

/-- The rows that a run emits for the bucket between `rows` and `rest`. -/
def Emits (arith : Arithmetic ν) (floats : Floats) (fuel : ℕ) (excludes : List ν) (maxSize : ν)
    (rows : List (Bucket ν)) (row : Bucket ν) (rest : List (Bucket ν)) (draws : RandomDraws)
    (added : List (ν × ℤ)) : Prop :=
  (convertBucketToSizes arith floats fuel draws (rows ++ row :: rest) excludes maxSize).isSome ∧
    ∃ before, convertBucketToSizes arith floats fuel draws rows excludes maxSize = some before ∧
      convertBucketToSizes arith floats fuel draws (rows ++ [row]) excludes maxSize =
        some (before ++ added)

variable {arith : Arithmetic ν} {fuel : ℕ} {draws draws' : RandomDraws} {maxSize : ν}
  {rows rest bucketTable : List (Bucket ν)} {excludes : List ν} {t' : Filling ν}
  {before : List (ν × ℤ)} {least : ℤ} {rowDraw rowDraw' : Draws} {other : Prop}

theorem addSize_held (hrow : Promising row) (hs : Held floats row before s)
    (hdistincts : 0 < s.distinctsRemaining)
    (hfill : roundEven (floats.fl (avgFill floats row / 2)) ≤ (rowDraw s.drawn).2)
    (h : addSize arith fuel rowDraw maxSize row s = some t) : Held floats row before t := by
  rcases addSize_cases h with rfl | ⟨cx, rfl⟩
  · exact ⟨hs.records, hs.left, hs.table⟩
  · obtain ⟨added, htable, hadded⟩ := hs.table
    refine ⟨clamp_leaves hs.records hdistincts _, hs.left_clamp hrow hdistincts hfill,
      added ++ [(cx, clamp row s (rowDraw s.drawn).2)], ?_, ?_⟩
    · rw [← List.append_assoc, ← htable]
    · intro x hx
      rcases List.mem_append.mp hx with hx | hx
      · exact hadded x hx
      · rw [List.mem_singleton.mp hx]
        exact hs.clamp_le hrow hdistincts _

theorem addSize_reaches (hs : Reaches floats row least before s)
    (hdistincts : 0 < s.distinctsRemaining)
    (hfill : (rowDraw s.drawn).2 = roundEven (floats.fl (avgFill floats row / 2)))
    (h : addSize arith fuel rowDraw maxSize row s = some t) :
    Reaches floats row least before t := by
  rcases addSize_cases h with rfl | ⟨cx, rfl⟩
  · exact ⟨hs.records, hs.left, hs.table⟩
  · have hrecords := hs.records
    have hleft := hs.left hdistincts
    have hsplit : (s.distinctsRemaining - 1) * leastFill floats row =
        (s.distinctsRemaining - 1 - 1) * leastFill floats row + leastFill floats row := by ring
    obtain ⟨added, htable, hadded⟩ := hs.table
    refine ⟨clamp_leaves hrecords hdistincts _, ?_,
      added ++ [(cx, clamp row s (rowDraw s.drawn).2)], ?_, ?_⟩
    · intro hmore
      have hmore' : 1 < s.distinctsRemaining := by
        have : 0 < s.distinctsRemaining - 1 := hmore
        omega
      have hclamp : clamp row s _ ≤ leastFill floats row := clamp_le_leastFill hmore'
      show least ≤ s.recordsToAdd - clamp row s _ - (s.distinctsRemaining - 1 - 1) * _
      rw [hfill]
      omega
    · rw [← List.append_assoc, ← htable]
    · intro hover
      have hlast : s.distinctsRemaining = 1 := by
        have : s.distinctsRemaining - 1 ≤ 0 := hover
        omega
      refine ⟨_, List.mem_append_right _ List.mem_cons_self, ?_⟩
      show least ≤ clamp row s _
      rw [clamp_last hlast]
      rw [hlast] at hleft
      omega

theorem addSize_drawn (h : addSize arith fuel rowDraw maxSize row s = some t) :
    t.drawn = s.drawn + 1 := by
  rcases addSize_cases h with rfl | ⟨cx, rfl⟩
  · rfl
  · rfl

theorem addSizes_drawn {n : ℕ}
    (h : whileLoop (fun s => 0 < s.recordsToAdd ∧ 0 < s.distinctsRemaining)
      (addSize arith fuel rowDraw maxSize row) n s = some t) : s.drawn ≤ t.drawn := by
  have hturn : ∀ a b : Filling ν, s.drawn ≤ a.drawn →
      decide (0 < a.recordsToAdd ∧ 0 < a.distinctsRemaining) = true →
      addSize arith fuel rowDraw maxSize row a = some b → s.drawn ≤ b.drawn := by
    intro a b ha _ hbody
    rw [addSize_drawn hbody]
    omega
  exact (whileLoop_spec hturn (Nat.le_refl _) h).1

theorem addBucket_drawn (h : GenSizeCsv.addBucket arith fuel rowDraw maxSize s row = some t) :
    s.drawn ≤ t.drawn := by
  obtain ⟨-, asize, -, hloop⟩ := addBucket_eq_some_iff.mp h
  have hdrawn := addSizes_drawn hloop
  exact hdrawn

/-- No row of the bucket crosses its peak when the least fills do not. -/
theorem addBucket_held (hrow : Promising row)
    (hleast : row.totalRecords - row.peakRecordsCount -
      (row.distinctSizesCount - 2) * leastFill floats row ≤ row.peakRecordsCount)
    (hfill : ∀ i, roundEven (floats.fl (avgFill floats row / 2)) ≤ (rowDraw i).2)
    (h : GenSizeCsv.addBucket arith fuel rowDraw maxSize s row = some t) :
    ∃ added, t.outputTable = s.outputTable ++ added ∧ ∀ x ∈ added, x.2 ≤ row.peakRecordsCount := by
  obtain ⟨-, asize, -, hloop⟩ := addBucket_eq_some_iff.mp h
  have hpeak : Held floats row s.outputTable (addPeak row asize s) := by
    refine ⟨hrow.records, ?_, [(asize, row.peakRecordsCount)], rfl, ?_⟩
    · show row.totalRecords - row.peakRecordsCount - (row.distinctSizesCount - 1 - 1) * _ ≤ _
      rw [sub_sub row.distinctSizesCount]
      exact hleast
    · intro x hx
      rw [List.mem_singleton.mp hx]
  have hturn : ∀ a b : Filling ν, Held floats row s.outputTable a →
      decide (0 < a.recordsToAdd ∧ 0 < a.distinctsRemaining) = true →
      addSize arith fuel rowDraw maxSize row a = some b → Held floats row s.outputTable b := by
    intro a b ha hcond hbody
    exact addSize_held hrow ha (of_decide_eq_true hcond).2 (hfill _) hbody
  exact (whileLoop_spec hturn hpeak hloop).1.table

/-- With the least fills the last row takes all that they leave. -/
theorem addBucket_reaches (hrow : Promising row)
    (hleast : least ≤ row.totalRecords - row.peakRecordsCount -
      (row.distinctSizesCount - 2) * leastFill floats row)
    (hfill : ∀ i, s.drawn ≤ i → i < t.drawn →
      (rowDraw i).2 = roundEven (floats.fl (avgFill floats row / 2)))
    (h : GenSizeCsv.addBucket arith fuel rowDraw maxSize s row = some t) :
    ∃ added, t.outputTable = s.outputTable ++ added ∧ ∃ x ∈ added, least ≤ x.2 := by
  obtain ⟨-, asize, -, hloop⟩ := addBucket_eq_some_iff.mp h
  have hdistinct := hrow.distinct
  -- the turns of this bucket are those below `t.drawn`
  have hturn : ∀ a b : Filling ν,
      s.drawn ≤ a.drawn ∧ (a.drawn ≤ t.drawn → Reaches floats row least s.outputTable a) →
      decide (0 < a.recordsToAdd ∧ 0 < a.distinctsRemaining) = true →
      addSize arith fuel rowDraw maxSize row a = some b →
      s.drawn ≤ b.drawn ∧ (b.drawn ≤ t.drawn → Reaches floats row least s.outputTable b) := by
    rintro a b ⟨hfrom, ha⟩ hcond hbody
    have hdrawn := addSize_drawn hbody
    refine ⟨by omega, fun hto => ?_⟩
    exact addSize_reaches (ha (by omega)) (of_decide_eq_true hcond).2
      (hfill _ hfrom (by omega)) hbody
  have hpeak : Reaches floats row least s.outputTable (addPeak row asize s) := by
    refine ⟨hrow.records, fun _ => ?_, [(asize, row.peakRecordsCount)], rfl, fun hover => ?_⟩
    · show least ≤ row.totalRecords - row.peakRecordsCount - (row.distinctSizesCount - 1 - 1) * _
      rw [sub_sub row.distinctSizesCount]
      exact hleast
    · have : row.distinctSizesCount - 1 ≤ 0 := hover
      omega
  have hstart : s.drawn ≤ (addPeak row asize s).drawn := Nat.le_refl _
  obtain ⟨⟨-, hreaches⟩, hover⟩ := whileLoop_spec hturn ⟨hstart, fun _ => hpeak⟩ hloop
  have hend := hreaches (Nat.le_refl _)
  obtain ⟨added, htable, hlast⟩ := hend.table
  refine ⟨added, htable, hlast ?_⟩
  have hrecords := hend.records
  have hnot := of_decide_eq_false hover
  omega

/-! ## Runs beside each other -/

theorem addSize_beside (hs : Beside other s s') (hdistincts : 0 < s.distinctsRemaining)
    (hdeviation : (rowDraw s.drawn).1 = (rowDraw' s.drawn).1)
    (hfill : ¬ other → (rowDraw s.drawn).2 = (rowDraw' s.drawn).2)
    (h : addSize arith fuel rowDraw maxSize row s = some t) :
    ∃ t', addSize arith fuel rowDraw' maxSize row s' = some t' ∧ Beside other t t' := by
  rw [addSize] at h
  rw [addSize, ← hs.drawn, ← hdeviation, ← hs.excludes]
  dsimp only at h ⊢
  split at h
  case isTrue hrange =>
    cases h
    rw [if_pos hrange]
    exact ⟨_, rfl, rfl, hs.distincts, rfl, hs.same, hs.enough⟩
  case isFalse hrange =>
    obtain ⟨cx, hprobe, h⟩ := Option.bind_eq_some_iff.mp h
    cases h
    rw [if_neg hrange, hprobe]
    refine ⟨_, rfl, rfl, congrArg (· - 1) hs.distincts, rfl, fun hother => ?_, fun hother => ?_⟩
    · have hclamp : clamp row s (rowDraw s.drawn).2 = clamp row s' (rowDraw' s.drawn).2 := by
        rw [clamp, clamp, hs.distincts, hs.same hother, hfill hother]
      exact congrArg₂ (· - ·) (hs.same hother) hclamp
    · obtain ⟨henough, henough'⟩ := hs.enough hother
      refine ⟨clamp_leaves henough hdistincts _, ?_⟩
      show s.distinctsRemaining - 1 ≤ _
      rw [hs.distincts] at henough' hdistincts ⊢
      exact clamp_leaves henough' hdistincts _

/-- The bucket is gone through with other draws as well. -/
theorem addBucket_beside
    (hother : other → 1 ≤ row.distinctSizesCount ∧
      row.distinctSizesCount - 1 ≤ row.totalRecords - row.peakRecordsCount)
    (hexcludes : s.excludes = s'.excludes) (hdrawn : s.drawn = s'.drawn)
    (h : GenSizeCsv.addBucket arith fuel rowDraw maxSize s row = some t)
    (hdraws : ∀ i, s.drawn ≤ i → i < t.drawn →
      (rowDraw i).1 = (rowDraw' i).1 ∧ (¬ other → (rowDraw i).2 = (rowDraw' i).2)) :
    ∃ t', GenSizeCsv.addBucket arith fuel rowDraw' maxSize s' row = some t' ∧
      t.excludes = t'.excludes ∧ t.drawn = t'.drawn := by
  obtain ⟨hdivisor, asize, hprobe, hloop⟩ := addBucket_eq_some_iff.mp h
  have hpeak : Beside other (addPeak row asize s) (addPeak row asize s') := by
    refine ⟨congrArg (asize :: ·) hexcludes, rfl, hdrawn, fun _ => rfl, fun ho => ?_⟩
    exact ⟨(hother ho).2, (hother ho).2⟩
  have hturn : ∀ u u' v n, Beside other u u' ∧ s.drawn ≤ u.drawn →
      decide (0 < u.recordsToAdd ∧ 0 < u.distinctsRemaining) = true →
      addSize arith fuel rowDraw maxSize row u = some v →
      whileLoop (fun s => 0 < s.recordsToAdd ∧ 0 < s.distinctsRemaining)
        (addSize arith fuel rowDraw maxSize row) n v = some t →
      ∃ v', addSize arith fuel rowDraw' maxSize row u' = some v' ∧
        Beside other v v' ∧ s.drawn ≤ v.drawn := by
    rintro u u' v n ⟨hbeside, hfrom⟩ hcond hbody hrest
    have hv := addSize_drawn hbody
    have hend := addSizes_drawn hrest
    obtain ⟨hdeviation, hfill⟩ := hdraws u.drawn hfrom (by omega)
    obtain ⟨v', hv', hbeside⟩ :=
      addSize_beside hbeside (of_decide_eq_true hcond).2 hdeviation hfill hbody
    exact ⟨v', hv', hbeside, by omega⟩
  have hstart : s.drawn ≤ (addPeak row asize s).drawn := Nat.le_refl _
  obtain ⟨t', ht', hbeside, -⟩ :=
    whileLoop_sim (fun u u' hu => hu.1.cond) hturn ⟨hpeak, hstart⟩ hloop
  refine ⟨t', addBucket_eq_some_iff.mpr ⟨hdivisor, asize, ?_, ht'⟩, hbeside.excludes,
    hbeside.drawn⟩
  rw [← hexcludes]
  exact hprobe

/-! ## The buckets of a class -/

theorem addBuckets_drawn
    (h : rows.foldlM (addBucket arith floats fuel draws maxSize) s = some t) :
    s.drawn ≤ t.drawn := by
  induction rows generalizing s with
  | nil =>
      cases h
      exact Nat.le_refl _
  | cons row rows ih =>
      rw [List.foldlM_cons] at h
      obtain ⟨u, hu, h⟩ := Option.bind_eq_some_iff.mp h
      exact le_trans (addBucket_drawn hu) (ih h)

/-- A run over buckets only depends on the draws that it makes. -/
theorem addBuckets_beside (hexcludes : s.excludes = s'.excludes) (hdrawn : s.drawn = s'.drawn)
    (h : rows.foldlM (addBucket arith floats fuel draws maxSize) s = some t)
    (hdraws : ∀ i, s.drawn ≤ i → i < t.drawn → draws i = draws' i) :
    ∃ t', rows.foldlM (addBucket arith floats fuel draws' maxSize) s' = some t' ∧
      t.excludes = t'.excludes ∧ t.drawn = t'.drawn := by
  induction rows generalizing s s' with
  | nil =>
      cases h
      exact ⟨s', rfl, hexcludes, hdrawn⟩
  | cons row rows ih =>
      rw [List.foldlM_cons] at h
      obtain ⟨u, hu, h⟩ := Option.bind_eq_some_iff.mp h
      have hfrom : s.drawn ≤ u.drawn := addBucket_drawn hu
      have hto := addBuckets_drawn h
      have hrow : ∀ i, s.drawn ≤ i → i < u.drawn →
          (rowDraws floats draws row i).1 = (rowDraws floats draws' row i).1 ∧
          (¬ False → (rowDraws floats draws row i).2 = (rowDraws floats draws' row i).2) := by
        intro i hi hi'
        rw [rowDraws, rowDraws, hdraws i hi (by omega)]
        exact ⟨rfl, fun _ => rfl⟩
      obtain ⟨u', hu', hexcludes', hdrawn'⟩ :=
        addBucket_beside False.elim hexcludes hdrawn hu hrow
      obtain ⟨t', ht', hend⟩ := ih hexcludes' hdrawn' h fun i hi hi' =>
        hdraws i (by omega) hi'
      refine ⟨t', ?_, hend⟩
      rw [List.foldlM_cons]
      exact Option.bind_eq_some_iff.mpr ⟨u', hu', ht'⟩

theorem convertBucketToSizes_eq_some_iff {outputTable : List (ν × ℤ)} :
    convertBucketToSizes arith floats fuel draws bucketTable excludes maxSize =
        some outputTable ↔
      ∃ s, bucketTable.foldlM (addBucket arith floats fuel draws maxSize)
        ⟨[], excludes, 0, 0, 0⟩ = some s ∧ s.outputTable = outputTable := by
  rw [convertBucketToSizes]
  refine Option.bind_eq_some_iff.trans (exists_congr fun s => and_congr Iff.rfl ?_)
  exact Option.some_inj

/-- The states of a run before and after one of its buckets. -/
theorem foldlM_at_iff {w : Filling ν} :
    (rows ++ row :: rest).foldlM (addBucket arith floats fuel draws maxSize) s = some w ↔
      ∃ t, rows.foldlM (addBucket arith floats fuel draws maxSize) s = some t ∧
        ∃ u, addBucket arith floats fuel draws maxSize t row = some u ∧
          rest.foldlM (addBucket arith floats fuel draws maxSize) u = some w := by
  rw [List.foldlM_append]
  refine Option.bind_eq_some_iff.trans (exists_congr fun t => and_congr Iff.rfl ?_)
  rw [List.foldlM_cons]
  exact Option.bind_eq_some_iff

theorem emits_iff {added : List (ν × ℤ)} :
    Emits arith floats fuel excludes maxSize rows row rest draws added ↔
      ∃ s t w, rows.foldlM (addBucket arith floats fuel draws maxSize)
          ⟨[], excludes, 0, 0, 0⟩ = some s ∧
        addBucket arith floats fuel draws maxSize s row = some t ∧
        rest.foldlM (addBucket arith floats fuel draws maxSize) t = some w ∧
        t.outputTable = s.outputTable ++ added := by
  rw [Emits, Option.isSome_iff_exists]
  constructor
  · rintro ⟨⟨outputTable, hrun⟩, before, hbefore, hafter⟩
    obtain ⟨w, hw, -⟩ := convertBucketToSizes_eq_some_iff.mp hrun
    obtain ⟨s, hs, t, ht, hw⟩ := foldlM_at_iff.mp hw
    obtain ⟨s', hs', rfl⟩ := convertBucketToSizes_eq_some_iff.mp hbefore
    obtain ⟨t', ht', htable⟩ := convertBucketToSizes_eq_some_iff.mp hafter
    obtain ⟨s'', hs'', t'', ht'', hnil⟩ := foldlM_at_iff.mp ht'
    rw [hs] at hs' hs''
    cases hs'
    cases hs''
    rw [ht] at ht''
    cases ht''
    cases hnil
    exact ⟨s, t, w, hs, ht, hw, htable⟩
  · rintro ⟨s, t, w, hs, ht, hw, htable⟩
    refine ⟨⟨w.outputTable, ?_⟩, s.outputTable, ?_, ?_⟩
    · exact convertBucketToSizes_eq_some_iff.mpr
        ⟨w, foldlM_at_iff.mpr ⟨s, hs, t, ht, hw⟩, rfl⟩
    · exact convertBucketToSizes_eq_some_iff.mpr ⟨s, hs, rfl⟩
    · exact convertBucketToSizes_eq_some_iff.mpr
        ⟨t, foldlM_at_iff.mpr ⟨s, hs, t, ht, rfl⟩, htable⟩

/-- A run in which every fill of the bucket is the least comes through when another one does. -/
theorem exists_least_run (hrow : Promising row) (hdraws : InRange draws)
    (h : (convertBucketToSizes arith floats fuel draws (rows ++ row :: rest) excludes
      maxSize).isSome) :
    ∃ draws' added, InRange draws' ∧
      Emits arith floats fuel excludes maxSize rows row rest draws' added ∧
      ∃ x ∈ added, row.totalRecords - row.peakRecordsCount -
        (row.distinctSizesCount - 2) * leastFill floats row ≤ x.2 := by
  obtain ⟨outputTable, hrun⟩ := Option.isSome_iff_exists.mp h
  obtain ⟨w, hw, -⟩ := convertBucketToSizes_eq_some_iff.mp hrun
  obtain ⟨s, hs, t, ht, hw⟩ := foldlM_at_iff.mp hw
  have hdistinct := hrow.distinct
  let least : RandomDraws := fun i =>
    if s.drawn ≤ i ∧ i < t.drawn then ((draws i).1, 0) else draws i
  have hinRange : InRange least := by
    intro i
    by_cases hi : s.drawn ≤ i ∧ i < t.drawn
    · simp [least, hi]
    · simpa [least, hi] using hdraws i
  have hfirst : ∀ i, 0 ≤ i → i < s.drawn → draws i = least i := by
    intro i _ hi
    exact (if_neg (by omega)).symm
  have hlast : ∀ i, t.drawn ≤ i → i < w.drawn → draws i = least i := by
    intro i hi _
    exact (if_neg (by omega)).symm
  have hown : ∀ i, s.drawn ≤ i → i < t.drawn →
      (rowDraws floats draws row i).1 = (rowDraws floats least row i).1 ∧
      (¬ True → (rowDraws floats draws row i).2 = (rowDraws floats least row i).2) := by
    intro i hi hi'
    refine ⟨?_, fun hfalse => absurd trivial hfalse⟩
    simp [rowDraws, least, hi, hi']
  obtain ⟨s', hs', hexcludes, hdrawn⟩ := addBuckets_beside rfl rfl hs hfirst
  obtain ⟨t', ht', hexcludes', hdrawn'⟩ :=
    addBucket_beside (fun _ => ⟨by omega, hrow.records⟩) hexcludes hdrawn ht hown
  obtain ⟨w', hw', -⟩ := addBuckets_beside hexcludes' hdrawn' hw hlast
  have hfill : ∀ i, s'.drawn ≤ i → i < t'.drawn →
      (rowDraws floats least row i).2 = roundEven (floats.fl (avgFill floats row / 2)) := by
    intro i hi hi'
    rw [← hdrawn] at hi
    rw [← hdrawn'] at hi'
    rw [← fill_zero]
    simp [rowDraws, least, hi, hi']
  obtain ⟨added, htable, hreaches⟩ := addBucket_reaches hrow (le_refl _) hfill ht'
  exact ⟨least, added, hinRange, emits_iff.mpr ⟨s', t', w', hs', ht', hw', htable⟩, hreaches⟩

/-- **No row crosses the peak of its bucket, whatever is drawn, exactly when** the last one does
not after the least fills. -/
theorem emits_le_peak_iff (hrow : Promising row)
    (hfinishes : ∃ draws, InRange draws ∧ (convertBucketToSizes arith floats fuel draws
      (rows ++ row :: rest) excludes maxSize).isSome) :
    (∀ draws added, InRange draws →
      Emits arith floats fuel excludes maxSize rows row rest draws added →
      ∀ x ∈ added, x.2 ≤ row.peakRecordsCount) ↔
      row.totalRecords - row.peakRecordsCount -
        (row.distinctSizesCount - 2) * leastFill floats row ≤ row.peakRecordsCount := by
  constructor
  · intro hheld
    obtain ⟨draws, hdraws, hrun⟩ := hfinishes
    obtain ⟨draws', added, hdraws', hemits, x, hx, hreaches⟩ :=
      exists_least_run hrow hdraws hrun
    exact le_trans hreaches (hheld draws' added hdraws' hemits x hx)
  · intro hleast draws added hdraws hemits
    obtain ⟨s, t, w, hs, ht, hw, htable⟩ := emits_iff.mp hemits
    have hfill : ∀ i, roundEven (floats.fl (avgFill floats row / 2)) ≤
        (rowDraws floats draws row i).2 := by
      intro i
      rw [← fill_zero]
      exact fill_zero_le hrow (hdraws i).1
    obtain ⟨added', htable', hadded⟩ := addBucket_held hrow hleast hfill ht
    rw [htable] at htable'
    rw [List.append_cancel_left htable']
    exact hadded

/-- Four records over two sizes, with a peak of three. -/
theorem three_of_four_le_peak :
    ¬ ∃ draws added, InRange draws ∧
      Emits sampleArithmetic Floats.exact 9 [5] 32711 [] ⟨1, 5, 3, 3, 7⟩ [] draws added ∧
      ∃ x ∈ added, 3 < x.2 := by
  rintro ⟨draws, added, hdraws, hemits, x, hx, hcrossed⟩
  refine absurd ((emits_le_peak_iff ⟨by decide, by decide, by decide, by decide⟩
    ⟨fun _ => (0, 0), fun _ => ⟨le_refl _, zero_lt_one⟩, ?_⟩).mpr ?_ draws added hdraws hemits x hx)
    (not_le.mpr hcrossed)
  · decide +kernel
  · decide +kernel

/-- With a peak of two the first size takes one of them and the last one three. -/
theorem last_size_crosses_peak :
    ¬ ∀ (fuel : ℕ) (excludes : List ℤ) (maxSize : ℤ) (rows : List (Bucket ℤ)) (row : Bucket ℤ)
      (rest : List (Bucket ℤ)) (draws : RandomDraws) (added : List (ℤ × ℤ)), Promising row →
      InRange draws →
      Emits sampleArithmetic Floats.exact fuel excludes maxSize rows row rest draws added →
      ∀ x ∈ added, x.2 ≤ row.peakRecordsCount := by
  intro hclaim
  have hemits : Emits sampleArithmetic Floats.exact 9 [] 32711 [] ⟨1, 5, 3, 2, 6⟩ []
      (fun _ => (0, 0)) [(5, 2), (6, 1), (7, 3)] := by
    refine ⟨?_, [], rfl, ?_⟩
    · decide +kernel
    · decide +kernel
  have hcrossed := hclaim 9 [] 32711 [] ⟨1, 5, 3, 2, 6⟩ [] (fun _ => (0, 0)) _
    ⟨by decide, by decide, by decide, by decide⟩ (fun _ => ⟨le_refl _, zero_lt_one⟩) hemits
    (7, 3) (by decide)
  exact absurd hcrossed (by decide)

end AuroraSizing.PeakCap

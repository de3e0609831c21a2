import AuroraSizing.Foundation.Parking
import AuroraSizing.Sizing.GenSizeCsv
import Mathlib.Data.Finset.Image
import Mathlib.Data.Finset.Range

/-!
# Which sizes the generator takes

Every size is probed for: the one that takes the peak from the average of its bucket, the others
from the average and a drawn deviation, which is dropped when it leads out of the range. A probe
goes up to the first size that is not excluded. The one for the peak may go beyond the largest
size, and the others stop there even if that size is excluded, so the sizes are good exactly when
the places the probes start from fit into the free sizes. A bucket of one size does not get that
far, as its records are divided by the sizes that remain.
-/

namespace AuroraSizing.DistinctSizes

open GenSizeCsv Foundation.Parking Foundation.While

/-- The sizes of the CSVs are `int`s. -/
def ints : Arithmetic ℤ := ⟨id, (· + ·)⟩

/-- What the division of `recordsToAdd` by `distinctsRemaining` raises. -/
structure ZeroDivisionError
  deriving DecidableEq

/-- `none` is a loop that is not over after `fuel` turns. -/
abbrev Run := Looping ZeroDivisionError

def addBucket (fuel : ℕ) (draws : Draws) (maxSize : ℤ) (s : Filling ℤ) (row : Bucket ℤ) :
    Run (Filling ℤ) := do
  let asize ← (whileLoop (fun asize => asize ∈ s.excludes)
    (fun asize => some (asize + 1)) fuel row.averageSize : Option ℤ)
  if row.distinctSizesCount - 1 = 0 then throw ⟨⟩
  else
    (whileLoop (fun s => 0 < s.recordsToAdd ∧ 0 < s.distinctsRemaining)
      (addSize ints fuel draws maxSize row) fuel (addPeak row asize s) : Option (Filling ℤ))

def convertBucketToSizes (fuel : ℕ) (draws : Draws) (bucketTable : List (Bucket ℤ))
    (excludes : List ℤ) (maxSize : ℤ) : Run (List (ℤ × ℤ)) := do
  let s ← bucketTable.foldlM (addBucket fuel draws maxSize) ⟨[], excludes, 0, 0, 0⟩
  return s.outputTable

/-- What may still be taken. -/
def freeSizes (maxSize : ℤ) (excludes : List ℤ) : Finset ℤ :=
  ((Finset.range maxSize.toNat).image fun n : ℕ => (n + 1 : ℤ)).filter (· ∉ excludes)

/-- A bucket with a record for each size. -/
structure Sensible (maxSize : ℤ) (row : Bucket ℤ) : Prop where
  distinct : 1 ≤ row.distinctSizesCount
  records : row.distinctSizesCount - 1 ≤ row.totalRecords - row.peakRecordsCount
  one_le : 1 ≤ row.averageSize
  le_max : row.averageSize ≤ maxSize

/-- The buckets of a class, with enough sizes for all of them. -/
structure Promised (bucketTable : List (Bucket ℤ)) (excludes : List ℤ) (maxSize : ℤ) : Prop where
  sensible : ∀ row ∈ bucketTable, Sensible maxSize row
  room : (bucketTable.map Bucket.distinctSizesCount).sum ≤ (freeSizes maxSize excludes).card

/-- The run ends well: the sizes are different and in range, and each bucket adds as many as it
says to what the buckets before it have added. -/
structure TakesFreeSizes (fuel : ℕ) (draws : Draws) (bucketTable : List (Bucket ℤ))
    (excludes : List ℤ) (maxSize : ℤ) (outputTable : List (ℤ × ℤ)) : Prop where
  distinct : (outputTable.map Prod.fst).Nodup
  free : ∀ x ∈ outputTable, x.1 ∉ excludes ∧ 1 ≤ x.1 ∧ x.1 ≤ maxSize
  each : ∀ rows, rows <+: bucketTable → ∃ sizes, sizes <+: outputTable ∧
    convertBucketToSizes fuel draws rows excludes maxSize = some (.ok sizes) ∧
    (sizes.length : ℤ) = (rows.map Bucket.distinctSizesCount).sum

/-! ## Where the probes start -/

/-- The starts that the draws of one bucket give, and how many turns have drawn. -/
def drawnStarts (draws : Draws) (maxSize averageSize : ℤ) : ℕ → ℤ → ℕ → List ℤ × ℕ
  | 0, _, drawn => ([], drawn)
  | fuel + 1, distinctsRemaining, drawn =>
      if 0 < distinctsRemaining then
        let cx := averageSize + (draws drawn).1
        if cx < 1 ∨ maxSize < cx then
          drawnStarts draws maxSize averageSize fuel distinctsRemaining (drawn + 1)
        else
          let rest := drawnStarts draws maxSize averageSize fuel (distinctsRemaining - 1)
            (drawn + 1)
          (cx :: rest.1, rest.2)
      else ([], drawn)

/-- The starts of all buckets. -/
def probeStarts (fuel : ℕ) (draws : Draws) (maxSize : ℤ) : List (Bucket ℤ) → ℕ → List ℤ
  | [], _ => []
  | row :: rows, drawn =>
      let own := drawnStarts draws maxSize row.averageSize fuel (row.distinctSizesCount - 1) drawn
      row.averageSize :: (own.1 ++ probeStarts fuel draws maxSize rows own.2)

variable {fuel : ℕ} {draws : Draws} {maxSize : ℤ} {row : Bucket ℤ}
  {rows bucketTable : List (Bucket ℤ)} {excludes : List ℤ} {s t u : Filling ℤ}
  {starts starts' : List ℤ}

theorem mem_freeSizes {x : ℤ} :
    x ∈ freeSizes maxSize excludes ↔ (1 ≤ x ∧ x ≤ maxSize) ∧ x ∉ excludes := by
  rw [freeSizes, Finset.mem_filter, Finset.mem_image]
  refine and_congr_left fun _ => ?_
  constructor
  · rintro ⟨n, hn, rfl⟩
    have hlt := Finset.mem_range.mp hn
    omega
  · rintro ⟨hone, hmax⟩
    refine ⟨(x - 1).toNat, Finset.mem_range.mpr ?_, ?_⟩
    · omega
    · omega

/-! ## One probe -/

/-- A search upwards stops at the first number where the condition fails. -/
theorem search_spec {cond : ℤ → Bool} {n : ℕ} {start place : ℤ}
    (h : whileLoop cond (fun x => some (x + 1)) n start = some place) :
    start ≤ place ∧ (∀ x, start ≤ x → x < place → cond x = true) ∧ cond place = false := by
  have hturn : ∀ a b : ℤ, (start ≤ a ∧ ∀ x, start ≤ x → x < a → cond x = true) →
      cond a = true → some (a + 1) = some b →
      start ≤ b ∧ ∀ x, start ≤ x → x < b → cond x = true := by
    rintro a b ⟨hle, hpassed⟩ hcond hbody
    cases hbody
    refine ⟨by omega, fun x hx hlt => ?_⟩
    by_cases hxa : x = a
    · rw [hxa]
      exact hcond
    · exact hpassed x hx (by omega)
  obtain ⟨⟨hle, hpassed⟩, hover⟩ :=
    whileLoop_spec hturn ⟨le_refl start, fun x hx hlt => absurd hx (not_le.mpr hlt)⟩ h
  exact ⟨hle, hpassed, hover⟩

/-- A probe may only stop at an excluded size where nothing is free above. -/
theorem parks_probe {start place : ℤ} (hone : 1 ≤ start) (hle : start ≤ place)
    (hpassed : ∀ x, start ≤ x → x < place → x ∈ excludes)
    (hstop : place ∈ excludes → maxSize ≤ place) :
    Parks (freeSizes maxSize excludes) [start] [place] := by
  refine Parks.cons hle ?_ (Parks.nil _)
  rintro ⟨p, hp, hsp⟩
  have hbelow : ∀ q ∈ freeSizes maxSize excludes, start ≤ q → place ≤ q := by
    intro q hq hsq
    by_contra hlt
    exact (mem_freeSizes.mp hq).2 (hpassed q hsq (not_le.mp hlt))
  obtain ⟨⟨-, hmax⟩, hfree⟩ := mem_freeSizes.mp hp
  have hplace := hbelow p hp hsp
  refine ⟨mem_freeSizes.mpr ⟨⟨by omega, by omega⟩, ?_⟩, hle, hbelow⟩
  intro hexcluded
  have hend : place = p := by
    have := hstop hexcluded
    omega
  exact hfree (hend ▸ hexcluded)

/-! ## The sizes of a run -/

/-- What was added between the two states, and where the probes for it started. -/
def Adds (maxSize : ℤ) (s : Filling ℤ) (starts : List ℤ) (t : Filling ℤ) : Prop :=
  ∃ added : List (ℤ × ℤ), t.outputTable = s.outputTable ++ added ∧
    (∀ x, x ∈ t.excludes ↔ x ∈ s.excludes ∨ x ∈ added.map Prod.fst) ∧
    Parks (freeSizes maxSize s.excludes) starts (added.map Prod.fst)

theorem Adds.refl (h : t.outputTable = s.outputTable) (hexcludes : t.excludes = s.excludes) :
    Adds maxSize s [] t := by
  refine ⟨[], ?_, ?_, Parks.nil _⟩
  · rw [h, List.append_nil]
  · intro x
    simp [hexcludes]

theorem Adds.trans (h : Adds maxSize s starts t) (h' : Adds maxSize t starts' u) :
    Adds maxSize s (starts ++ starts') u := by
  obtain ⟨added, htable, hexcludes, hparks⟩ := h
  obtain ⟨added', htable', hexcludes', hparks'⟩ := h'
  refine ⟨added ++ added', ?_, ?_, ?_⟩
  · rw [htable', htable, List.append_assoc]
  · intro x
    rw [hexcludes', hexcludes, List.map_append, List.mem_append, or_assoc]
  · have hleft : freeSizes maxSize t.excludes =
        freeSizes maxSize s.excludes \ (added.map Prod.fst).toFinset := by
      ext x
      rw [Finset.mem_sdiff, mem_freeSizes, mem_freeSizes, hexcludes, List.mem_toFinset, not_or]
      exact and_assoc.symm
    rw [List.map_append]
    exact hparks.append (hleft ▸ hparks')

theorem adds_probe {start place cy : ℤ} (hone : 1 ≤ start) (hle : start ≤ place)
    (hpassed : ∀ x, start ≤ x → x < place → x ∈ s.excludes)
    (hstop : place ∈ s.excludes → maxSize ≤ place)
    (htable : t.outputTable = s.outputTable ++ [(place, cy)])
    (hexcludes : t.excludes = place :: s.excludes) : Adds maxSize s [start] t := by
  refine ⟨[(place, cy)], htable, ?_, parks_probe hone hle hpassed hstop⟩
  intro x
  rw [hexcludes, List.mem_cons, List.map_singleton, List.mem_singleton, or_comm]

/-- One turn: a draw out of range is dropped, another one starts a probe. -/
theorem addSize_adds (hrecords : s.distinctsRemaining ≤ s.recordsToAdd)
    (hdistincts : 0 < s.distinctsRemaining)
    (h : addSize ints fuel draws maxSize row s = some t) :
    t.drawn = s.drawn + 1 ∧ t.distinctsRemaining ≤ t.recordsToAdd ∧
      if row.averageSize + (draws s.drawn).1 < 1 ∨
          maxSize < row.averageSize + (draws s.drawn).1 then
        Adds maxSize s [] t ∧ t.distinctsRemaining = s.distinctsRemaining
      else
        Adds maxSize s [row.averageSize + (draws s.drawn).1] t ∧
          t.distinctsRemaining = s.distinctsRemaining - 1 := by
  rw [addSize] at h
  change (if row.averageSize + (draws s.drawn).1 < 1 ∨
    maxSize < row.averageSize + (draws s.drawn).1 then _ else _) = _ at h
  split at h
  case isTrue hrange =>
    cases h
    rw [if_pos hrange]
    exact ⟨rfl, hrecords, Adds.refl rfl rfl, rfl⟩
  case isFalse hrange =>
    obtain ⟨place, hprobe, h⟩ := Option.bind_eq_some_iff.mp h
    cases h
    obtain ⟨hle, hpassed, hover⟩ := search_spec hprobe
    rw [if_neg hrange]
    refine ⟨rfl, clamp_leaves hrecords hdistincts _, ?_, rfl⟩
    refine adds_probe ?_ hle ?_ ?_ rfl rfl
    · omega
    · intro x hx hlt
      exact (of_decide_eq_true (hpassed x hx hlt)).1
    · intro hexcluded
      by_contra hlt
      exact of_decide_eq_false hover ⟨hexcluded, not_le.mp hlt⟩

/-- The loop over one bucket ends when all its sizes have been probed for. -/
theorem addSizes_add {n : ℕ} (hrecords : s.distinctsRemaining ≤ s.recordsToAdd)
    (hdistincts : 0 ≤ s.distinctsRemaining)
    (h : whileLoop (fun s => 0 < s.recordsToAdd ∧ 0 < s.distinctsRemaining)
      (addSize ints fuel draws maxSize row) n s = some t) :
    Adds maxSize s (drawnStarts draws maxSize row.averageSize n s.distinctsRemaining s.drawn).1 t ∧
      t.drawn = (drawnStarts draws maxSize row.averageSize n s.distinctsRemaining s.drawn).2 ∧
      ((drawnStarts draws maxSize row.averageSize n s.distinctsRemaining s.drawn).1.length : ℤ) =
        s.distinctsRemaining := by
  induction n generalizing s with
  | zero =>
      rw [whileLoop] at h
      split at h
      case isTrue => cases h
      case isFalse hcond =>
        have hzero : s.distinctsRemaining = 0 := by
          rw [decide_eq_true_eq] at hcond
          omega
        cases h
        exact ⟨Adds.refl rfl rfl, rfl, hzero.symm⟩
  | succ n ih =>
      rw [whileLoop] at h
      split at h
      case isTrue hcond =>
        obtain ⟨-, hmore⟩ := of_decide_eq_true hcond
        obtain ⟨u, hu, h⟩ := Option.bind_eq_some_iff.mp h
        obtain ⟨hdrawn, hleft, hturn⟩ := addSize_adds hrecords hmore hu
        rw [drawnStarts, if_pos hmore]
        dsimp only
        split at hturn
        case isTrue hrange =>
          obtain ⟨hadds, hremaining⟩ := hturn
          obtain ⟨hrest, hdrawn', hlength⟩ := ih hleft (by omega) h
          rw [hremaining, hdrawn] at hrest hdrawn' hlength
          rw [if_pos hrange]
          exact ⟨hadds.trans hrest, hdrawn', hlength⟩
        case isFalse hrange =>
          obtain ⟨hadds, hremaining⟩ := hturn
          obtain ⟨hrest, hdrawn', hlength⟩ := ih hleft (by omega) h
          rw [hremaining, hdrawn] at hrest hdrawn' hlength
          rw [if_neg hrange]
          refine ⟨hadds.trans hrest, hdrawn', ?_⟩
          rw [List.length_cons]
          omega
      case isFalse hcond =>
        have hzero : s.distinctsRemaining = 0 := by
          rw [decide_eq_true_eq] at hcond
          omega
        cases h
        rw [drawnStarts, if_neg (by omega)]
        exact ⟨Adds.refl rfl rfl, rfl, hzero.symm⟩

/-- A bucket that gets through probes from its average and from its draws. -/
theorem addBucket_adds (hrow : Sensible maxSize row)
    (h : GenSizeCsv.addBucket ints fuel draws maxSize s row = some t) :
    let own := drawnStarts draws maxSize row.averageSize fuel (row.distinctSizesCount - 1) s.drawn
    Adds maxSize s (row.averageSize :: own.1) t ∧ t.drawn = own.2 ∧
      (own.1.length : ℤ) = row.distinctSizesCount - 1 := by
  obtain ⟨-, asize, hprobe, h⟩ := addBucket_eq_some_iff.mp h
  have hone := hrow.distinct
  obtain ⟨hle, hpassed, hover⟩ := search_spec hprobe
  have hpeak : Adds maxSize s [row.averageSize] (addPeak row asize s) := by
    refine adds_probe hrow.one_le hle ?_ ?_ rfl rfl
    · intro x hx hlt
      exact of_decide_eq_true (hpassed x hx hlt)
    · intro hexcluded
      exact absurd hexcluded (of_decide_eq_false hover)
  have hdistincts : 0 ≤ (addPeak row asize s).distinctsRemaining := by
    show 0 ≤ row.distinctSizesCount - 1
    omega
  obtain ⟨hadds, hdrawn, hlength⟩ := addSizes_add hrow.records hdistincts h
  exact ⟨hpeak.trans hadds, hdrawn, hlength⟩

/-- **The run over the buckets.** -/
theorem addBuckets_add (hrows : ∀ row ∈ rows, Sensible maxSize row)
    (h : rows.foldlM (GenSizeCsv.addBucket ints fuel draws maxSize) s = some t) :
    Adds maxSize s (probeStarts fuel draws maxSize rows s.drawn) t ∧
      ((probeStarts fuel draws maxSize rows s.drawn).length : ℤ) =
        (rows.map Bucket.distinctSizesCount).sum := by
  induction rows generalizing s with
  | nil =>
      cases h
      exact ⟨Adds.refl rfl rfl, rfl⟩
  | cons row rows ih =>
      rw [List.foldlM_cons] at h
      obtain ⟨u, hu, h⟩ := Option.bind_eq_some_iff.mp h
      obtain ⟨hrow, hrows⟩ := List.forall_mem_cons.mp hrows
      obtain ⟨hadds, hdrawn, hlength⟩ := addBucket_adds hrow hu
      obtain ⟨hrest, hlength'⟩ := ih hrows h
      rw [hdrawn] at hrest hlength'
      rw [probeStarts]
      refine ⟨hadds.trans hrest, ?_⟩
      rw [List.length_cons, List.length_append, List.map_cons, List.sum_cons]
      omega

/-! ## Exceptions -/

theorem addBucket_ok_iff :
    addBucket fuel draws maxSize s row = some (.ok t) ↔
      GenSizeCsv.addBucket ints fuel draws maxSize s row = some t := by
  rw [addBucket, GenSizeCsv.addBucket, bind_ok_iff]
  refine Iff.trans ?_ Option.bind_eq_some_iff.symm
  refine exists_congr fun asize => and_congr lift_ok_iff ?_
  split
  case isTrue =>
    constructor
    · intro h
      cases h
    · intro h
      cases h
  case isFalse => exact lift_ok_iff

theorem addBucket_error {e : ZeroDivisionError}
    (h : addBucket fuel draws maxSize s row = some (.error e)) : row.distinctSizesCount = 1 := by
  rw [addBucket] at h
  rcases bind_error h with h | ⟨asize, -, h⟩
  · exact absurd h lift_ne_error
  · split at h
    case isTrue hzero => omega
    case isFalse => exact absurd h lift_ne_error

theorem addBuckets_divide
    (h : rows.foldlM (GenSizeCsv.addBucket ints fuel draws maxSize) s = some t) :
    ∀ row ∈ rows, row.distinctSizesCount ≠ 1 := by
  induction rows generalizing s with
  | nil =>
      intro row hrow
      cases hrow
  | cons row rows ih =>
      rw [List.foldlM_cons] at h
      obtain ⟨u, hu, h⟩ := Option.bind_eq_some_iff.mp h
      obtain ⟨hdivisor, -⟩ := addBucket_eq_some_iff.mp hu
      refine List.forall_mem_cons.mpr ⟨?_, ih h⟩
      intro hone
      exact hdivisor (by omega)

/-! ## The sizes of a class -/

variable {outputTable : List (ℤ × ℤ)}

theorem convertBucketToSizes_ok_iff :
    convertBucketToSizes fuel draws bucketTable excludes maxSize = some (.ok outputTable) ↔
      ∃ t, bucketTable.foldlM (GenSizeCsv.addBucket ints fuel draws maxSize)
        ⟨[], excludes, 0, 0, 0⟩ = some t ∧ t.outputTable = outputTable := by
  rw [convertBucketToSizes, bind_ok_iff]
  refine exists_congr fun t => and_congr (foldlM_ok_iff fun _ _ _ => addBucket_ok_iff) ?_
  constructor
  · intro h
    cases h
    rfl
  · intro h
    rw [← h]
    rfl

/-- A run without an exception is one of the generator. -/
theorem convertBucketToSizes_ok_iff_some :
    convertBucketToSizes fuel draws bucketTable excludes maxSize = some (.ok outputTable) ↔
      GenSizeCsv.convertBucketToSizes ints fuel draws bucketTable excludes maxSize =
        some outputTable := by
  rw [convertBucketToSizes_ok_iff, GenSizeCsv.convertBucketToSizes]
  refine Iff.trans ?_ Option.bind_eq_some_iff.symm
  refine exists_congr fun t => and_congr Iff.rfl ?_
  exact Option.some_inj.symm

theorem convertBucketToSizes_error {e : ZeroDivisionError}
    (h : convertBucketToSizes fuel draws bucketTable excludes maxSize = some (.error e)) :
    ∃ row ∈ bucketTable, row.distinctSizesCount = 1 := by
  rw [convertBucketToSizes] at h
  rcases bind_error h with h | ⟨t, -, h⟩
  · obtain ⟨row, hrow, u, h⟩ := foldlM_error h
    exact ⟨row, hrow, addBucket_error h⟩
  · cases h

theorem convertBucketToSizes_parks (hrows : ∀ row ∈ rows, Sensible maxSize row)
    (h : convertBucketToSizes fuel draws rows excludes maxSize = some (.ok outputTable)) :
    Parks (freeSizes maxSize excludes) (probeStarts fuel draws maxSize rows 0)
        (outputTable.map Prod.fst) ∧
      (outputTable.length : ℤ) = (rows.map Bucket.distinctSizesCount).sum := by
  obtain ⟨t, ht, rfl⟩ := convertBucketToSizes_ok_iff.mp h
  obtain ⟨⟨added, htable, -, hparks⟩, hlength⟩ := addBuckets_add hrows ht
  have hsame : (probeStarts fuel draws maxSize rows 0).length = added.length := by
    rw [hparks.le.length_eq, List.length_map]
  rw [htable]
  exact ⟨hparks, hsame ▸ hlength⟩

/-- The sizes of the first buckets are there before those of the others. -/
theorem convertBucketToSizes_first (hrows : ∀ row ∈ bucketTable, Sensible maxSize row)
    (h : convertBucketToSizes fuel draws bucketTable excludes maxSize = some (.ok outputTable))
    (hfirst : rows <+: bucketTable) :
    ∃ sizes, sizes <+: outputTable ∧
      convertBucketToSizes fuel draws rows excludes maxSize = some (.ok sizes) := by
  obtain ⟨rest, rfl⟩ := hfirst
  obtain ⟨t, ht, rfl⟩ := convertBucketToSizes_ok_iff.mp h
  rw [List.foldlM_append] at ht
  obtain ⟨u, hu, ht⟩ := Option.bind_eq_some_iff.mp ht
  obtain ⟨⟨added, htable, -⟩, -⟩ :=
    addBuckets_add (fun row hrow => hrows row (List.mem_append_right _ hrow)) ht
  exact ⟨u.outputTable, ⟨added, htable.symm⟩, convertBucketToSizes_ok_iff.mpr ⟨u, hu, rfl⟩⟩

/-- The sizes are free ones, each of them once, exactly when the starts fit. -/
theorem takesFreeSizes_iff_fits (hrows : ∀ row ∈ bucketTable, Sensible maxSize row)
    (h : convertBucketToSizes fuel draws bucketTable excludes maxSize = some (.ok outputTable)) :
    TakesFreeSizes fuel draws bucketTable excludes maxSize outputTable ↔
      Fits (probeStarts fuel draws maxSize bucketTable 0) (freeSizes maxSize excludes) := by
  have hfree : (∀ x ∈ outputTable, x.1 ∉ excludes ∧ 1 ≤ x.1 ∧ x.1 ≤ maxSize) ↔
      ∀ p ∈ outputTable.map Prod.fst, p ∈ freeSizes maxSize excludes := by
    rw [List.forall_mem_map]
    refine forall₂_congr fun x _ => ?_
    rw [mem_freeSizes, and_comm]
  rw [← (convertBucketToSizes_parks hrows h).1.places_iff, ← hfree]
  constructor
  · intro htakes
    exact ⟨htakes.distinct, htakes.free⟩
  · rintro ⟨hdistinct, hfree⟩
    refine ⟨hdistinct, hfree, ?_⟩
    intro rows hfirst
    obtain ⟨sizes, hsizes, hrun⟩ := convertBucketToSizes_first hrows h hfirst
    refine ⟨sizes, hsizes, hrun, (convertBucketToSizes_parks ?_ hrun).2⟩
    intro row hrow
    exact hrows row (hfirst.subset hrow)

/-- **The generator takes different free sizes exactly when** no bucket has a single size and
from no size on more probes start than there are free sizes. -/
theorem generates_free_iff {outcome : Except ZeroDivisionError (List (ℤ × ℤ))}
    (hpromised : Promised bucketTable excludes maxSize)
    (h : convertBucketToSizes fuel draws bucketTable excludes maxSize = some outcome) :
    (∃ outputTable, outcome = .ok outputTable ∧
      TakesFreeSizes fuel draws bucketTable excludes maxSize outputTable) ↔
      (∀ row ∈ bucketTable, row.distinctSizesCount ≠ 1) ∧
        Fits (probeStarts fuel draws maxSize bucketTable 0) (freeSizes maxSize excludes) := by
  cases outcome with
  | error e =>
      obtain ⟨row, hrow, hone⟩ := convertBucketToSizes_error h
      constructor
      · rintro ⟨outputTable, hok, -⟩
        cases hok
      · rintro ⟨hdivide, -⟩
        exact absurd hone (hdivide row hrow)
  | ok outputTable =>
      have hiff := takesFreeSizes_iff_fits hpromised.sensible h
      obtain ⟨t, ht, -⟩ := convertBucketToSizes_ok_iff.mp h
      constructor
      · rintro ⟨outputTable', hok, htakes⟩
        cases hok
        exact ⟨addBuckets_divide ht, hiff.mp htakes⟩
      · rintro ⟨-, hfits⟩
        exact ⟨outputTable, rfl, hiff.mpr hfits⟩

/-- Three sizes are free at the end of the range, and one draw leads out of it. -/
def endBucket : Bucket ℤ := ⟨1, 32709, 3, 2, 6⟩

def endDraws : Draws := fun n => if n = 1 then (5, 3) else (0, 3)

theorem endBucket_generates_free :
    ∃ outputTable, (.ok [(32709, 2), (32710, 2), (32711, 2)] :
        Except ZeroDivisionError (List (ℤ × ℤ))) = .ok outputTable ∧
      TakesFreeSizes 9 endDraws [endBucket] [5] 32711 outputTable := by
  have hfree : ∀ p ∈ [32709, 32710, 32711], p ∈ freeSizes 32711 [5] := by
    intro p hp
    rw [mem_freeSizes]
    revert p
    decide
  refine (generates_free_iff ⟨?_, ?_⟩ rfl).mpr ⟨?_, ?_⟩
  · intro row hrow
    rw [List.mem_singleton.mp hrow]
    exact ⟨by decide, by decide, by decide, by decide⟩
  · have hcard : ({32709, 32710, 32711} : Finset ℤ).card ≤ (freeSizes 32711 [5]).card := by
      refine Finset.card_le_card fun p hp => hfree p ?_
      simpa using hp
    exact Int.ofNat_le.mpr hcard
  · decide
  · have hstarts : probeStarts 9 endDraws 32711 [endBucket] 0 = [32709, 32709, 32709] := by
      decide
    rw [hstarts]
    exact fits_of_places (by simp) (by decide) hfree

/-- The largest size is taken by the peak, and the one draw leads to it again. -/
theorem largest_size_taken_twice :
    ¬ ∀ (fuel : ℕ) (draws : Draws) (bucketTable : List (Bucket ℤ)) (excludes : List ℤ)
      (maxSize : ℤ) (outcome : Except ZeroDivisionError (List (ℤ × ℤ))),
      Promised bucketTable excludes maxSize →
      convertBucketToSizes fuel draws bucketTable excludes maxSize = some outcome →
      ∃ outputTable, outcome = .ok outputTable ∧
        TakesFreeSizes fuel draws bucketTable excludes maxSize outputTable := by
  intro hclaim
  have hpromised : Promised [⟨1, 32711, 2, 1, 2⟩] [] 32711 := by
    refine ⟨?_, ?_⟩
    · intro row hrow
      rw [List.mem_singleton.mp hrow]
      exact ⟨by decide, by decide, by decide, by decide⟩
    · have hcard : ({1, 2} : Finset ℤ).card ≤ (freeSizes 32711 []).card := by
        refine Finset.card_le_card fun p hp => mem_freeSizes.mpr ?_
        revert p
        decide
      exact Int.ofNat_le.mpr hcard
  obtain ⟨outputTable, hok, htakes⟩ := hclaim 9 (fun _ => (0, 1)) [⟨1, 32711, 2, 1, 2⟩] [] 32711
    (.ok [(32711, 1), (32711, 1)]) hpromised rfl
  cases hok
  exact absurd htakes.distinct (by decide)

end AuroraSizing.DistinctSizes

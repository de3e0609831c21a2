import AuroraSizing.Foundation.Maps
import AuroraSizing.Foundation.Serials
import AuroraSizing.Objects.Reconciliation

/-!
# Loading a size CSV from a serial on

`insertObjectsFromCSV` numbers the objects of a CSV and is to insert those from `serialStart` on.
A first pass looks for the row in which that serial lies, and a second pass starts at that row. But
the second pass starts to count there again, the first row is taken for no row at all, and what
does not fill a batch of 20000 is never inserted. So the load covers the CSV only when there is
nothing to insert, or when no object lies before the row found and the objects fill the batches.
-/

namespace AuroraSizing.SerialLoad

open Reconciliation Foundation.Serials Foundation.TextKeys

/-- A row of a size CSV: `numObjects` objects of `memSize` bytes. -/
structure SizeRow extends CsvRow where
  size_nonneg : 0 ≤ memSize.toInt
  count_nonneg : 0 ≤ numObjects.toInt

def SizeRow.count (row : SizeRow) : ℕ := row.numObjects.toInt.toNat

/-- `%010d` -/
def padded (serial : ℕ) : List Char :=
  List.replicate (10 - (Nat.toDigits 10 serial).length) '0' ++ Nat.toDigits 10 serial

/-- `"testSec-%010d-%d"` -/
def TEST_SEC_010_D_D (serial : ℕ) (classId : JInt) : List Char :=
  "testSec-".toList ++ (padded serial ++ '-' :: decimal classId.toInt)

/-- The next of the random streams, for one object. -/
structure Draw where
  timeStampCreated : JInt
  lastTransaction : JLong
  updateCount : JInt
  dbIdUpdated : JInt
  versionInfo : JInt

structure Runtime where
  jdk : Jdk
  /-- `HashMap.values`, in whatever order. -/
  values : List ObjectRow → List ObjectRow
  values_perm : ∀ objects, (values objects).Perm objects
  draws : ℕ → Draw

/-! ## The first pass -/

/-- The variables of the loop; a `long` holds the number of objects of every CSV. -/
structure FirstPass where
  rowNum : ℕ
  targetRow : ℕ
  progressCounter : ℕ

def FirstPass.row (skipUpto : ℕ) (p : FirstPass) (row : SizeRow) : FirstPass :=
  let progressCounter := p.progressCounter + row.count
  if p.targetRow = 0 ∧ skipUpto ≤ progressCounter then ⟨p.rowNum + 1, p.rowNum, row.count⟩
  else ⟨p.rowNum + 1, p.targetRow, progressCounter⟩

def firstPass (skipUpto : ℕ) (allData : List SizeRow) : FirstPass :=
  allData.foldl (FirstPass.row skipUpto) ⟨0, 0, 0⟩

/-! ## The second pass -/

/-- The variables of the loop, and the table. -/
structure Load where
  serial : ℕ
  data : List (String × ObjectRow)
  table : List ObjectRow

/-- The row of `INSERT_RECORDS`. -/
def holder (r : Runtime) (serial : ℕ) (row : SizeRow) : ObjectRow where
  name := String.ofList (TEST_SEC_010_D_D serial row.objClassId)
  typeId := row.objClassId
  lastTransaction := (r.draws serial).lastTransaction
  timeUpdated := ⟨(r.draws serial).timeStampCreated.toInt * 1000000000⟩
  updateCount := (r.draws serial).updateCount.signExtend 64
  dateCreated := ((r.draws serial).timeStampCreated.setWidth 16).signExtend 32
  dbIdUpdated := (r.draws serial).dbIdUpdated
  versionInfo := (r.draws serial).versionInfo
  sdbDiskMem := getSizedByteArray 100
  mem := getSizedByteArray row.memSize
  nameLower := r.jdk.toLowerCase (String.ofList (TEST_SEC_010_D_D serial row.objClassId))

/-- `Select count(1) from objects where nameLower = ?` -/
def OBJ_EXISTS (table : List ObjectRow) (nameLower : String) : ℕ :=
  (table.filter fun o => o.nameLower = nameLower).length

/-- The database accepts every insert. -/
def offloadToDB (table objects : List ObjectRow) : List ObjectRow := table ++ objects

/-- The body of the inner loop; an exception leaves the table as it is then. -/
def addObject (r : Runtime) (skipUpto target : ℕ) (l : Load) (row : SizeRow) :
    Except (List ObjectRow) Load :=
  let serial := l.serial + 1
  let name := String.ofList (TEST_SEC_010_D_D serial row.objClassId)
  if serial < skipUpto then .ok { l with serial := serial }
  else if OBJ_EXISTS l.table (r.jdk.toLowerCase name) = 1 then .ok { l with serial := serial }
  else
    let data := Foundation.Maps.put l.data name (holder r serial row)
    -- the progress that is printed is divided by `target`
    if target = 0 then .error l.table
    else if 20000 ≤ data.length then
      .ok ⟨serial, [], offloadToDB l.table (r.values (data.map Prod.snd))⟩
    else .ok ⟨serial, data, l.table⟩

def addRow (r : Runtime) (skipUpto target : ℕ) (l : Load) (row : SizeRow) :
    Except (List ObjectRow) Load :=
  (List.range row.count).foldlM (fun l _ => addObject r skipUpto target l row) l

/-- The table that a load of an empty one leaves. -/
def insertObjectsFromCSV (r : Runtime) (skipUpto : ℕ) (allData : List SizeRow) : List ObjectRow :=
  let pass := firstPass skipUpto allData
  match (allData.drop pass.targetRow).foldlM (addRow r skipUpto pass.progressCounter) ⟨0, [], []⟩
    with
  | .ok l => l.table
  | .error table => table

/-! ## What it is for -/

/-- The objects of the CSV in row order. -/
def objects (allData : List SizeRow) : List SizeRow :=
  allData.flatMap fun row => List.replicate row.count row

/-- The object with this number. -/
def objectOf (p : SizeRow × ℕ) : String × JInt × ℤ :=
  (String.ofList (TEST_SEC_010_D_D p.2 p.1.objClassId), p.1.objClassId, p.1.memSize.toInt)

/-- The objects from the start on are in the table, each of them once, and nothing else is. -/
def Covers (skipUpto : ℕ) (allData : List SizeRow) (table : List ObjectRow) : Prop :=
  (table.map summary).Perm ((fromSerial skipUpto (objects allData)).map objectOf)

/-- The start lies in the first row that has objects, which is not the first of several rows. -/
def StartsOnTop (skipUpto : ℕ) (allData : List SizeRow) : Prop :=
  ∃ empty row rest, allData = empty ++ row :: rest ∧ (∀ e ∈ empty, e.count = 0) ∧
    skipUpto ≤ row.count ∧ (empty = [] → rest = [])

/-- No locale has another lower case of a name. -/
def LowersNames (jdk : Jdk) : Prop := ∀ serial classId,
  jdk.toLowerCase (String.ofList (TEST_SEC_010_D_D serial classId)) =
    String.ofList ("testsec-".toList ++ (padded serial ++ '-' :: decimal classId.toInt))

/-! ## The names -/

theorem padded_injective : Function.Injective padded := by
  intro m n h
  have hvalue := congrArg (fun digits => Nat.ofDigitChars 10 digits 0) h
  have hpad : ∀ k (digits : List Char), Nat.ofDigitChars 10 (List.replicate k '0' ++ digits) 0 =
      Nat.ofDigitChars 10 digits 0 := by
    intro k digits
    induction k with
    | zero => rfl
    | succ k ih => exact ih
  simpa only [padded, hpad, Nat.ofDigitChars_ten_toDigits] using hvalue

theorem dash_notMem_padded (serial : ℕ) : '-' ∉ padded serial := by
  intro h
  rcases List.mem_append.mp h with h | h
  · exact absurd (List.eq_of_mem_replicate h) (by decide)
  · exact dash_notMem_digits serial h

/-- The number is what stands before the dash. -/
theorem serial_eq {m n : ℕ} {rest rest' : List Char}
    (h : padded m ++ '-' :: rest = padded n ++ '-' :: rest') : m = n := by
  have hprefix : padded m ++ ['-'] <+: padded n ++ '-' :: rest' := by
    rw [← h]
    exact ⟨rest, by simp⟩
  exact padded_injective
    ((field_prefix_iff (dash_notMem_padded m) (dash_notMem_padded n)).mp hprefix)

theorem name_serial_eq {m n : ℕ} {classId classId' : JInt}
    (h : String.ofList (TEST_SEC_010_D_D m classId) =
      String.ofList (TEST_SEC_010_D_D n classId')) : m = n := by
  exact serial_eq (List.append_cancel_left (String.ofList_injective h))

theorem LowersNames.serial_eq {jdk : Jdk} (hlower : LowersNames jdk) {m n : ℕ}
    {classId classId' : JInt}
    (h : jdk.toLowerCase (String.ofList (TEST_SEC_010_D_D m classId)) =
      jdk.toLowerCase (String.ofList (TEST_SEC_010_D_D n classId'))) : m = n := by
  rw [hlower, hlower] at h
  exact SerialLoad.serial_eq (List.append_cancel_left (String.ofList_injective h))

/-! ## Where the second pass starts -/

variable {r : Runtime} {skipUpto target : ℕ} {allData rows done : List SizeRow} {row : SizeRow}
  {p : FirstPass} {l : Load}

@[simp] theorem length_objects_cons (row : SizeRow) (rows : List SizeRow) :
    (objects (row :: rows)).length = row.count + (objects rows).length := by
  simp [objects]

theorem objects_append (rows rows' : List SizeRow) :
    objects (rows ++ rows') = objects rows ++ objects rows' :=
  List.flatMap_append

theorem length_objects_split (rows : List SizeRow) (k : ℕ) :
    (objects (rows.take k)).length + (objects (rows.drop k)).length = (objects rows).length := by
  rw [← List.length_append, ← objects_append, List.take_append_drop]

/-- Before the start is reached. -/
theorem foldl_row_below (htarget : p.targetRow = 0)
    (hbelow : p.progressCounter + (objects rows).length < skipUpto) :
    rows.foldl (FirstPass.row skipUpto) p =
      ⟨p.rowNum + rows.length, 0, p.progressCounter + (objects rows).length⟩ := by
  induction rows generalizing p with
  | nil =>
      cases p
      cases htarget
      rfl
  | cons row rows ih =>
      rw [length_objects_cons] at hbelow
      have hrow : FirstPass.row skipUpto p row =
          ⟨p.rowNum + 1, 0, p.progressCounter + row.count⟩ := by
        rw [FirstPass.row, if_neg (by omega), htarget]
      rw [List.foldl_cons, hrow, ih rfl (by dsimp only; omega), length_objects_cons,
        List.length_cons]
      dsimp only
      rw [Nat.add_assoc p.rowNum, Nat.add_comm 1, Nat.add_assoc p.progressCounter]

/-- Behind the row that was found. -/
theorem foldl_row_found (htarget : p.targetRow ≠ 0) :
    rows.foldl (FirstPass.row skipUpto) p =
      ⟨p.rowNum + rows.length, p.targetRow, p.progressCounter + (objects rows).length⟩ := by
  induction rows generalizing p with
  | nil => rfl
  | cons row rows ih =>
      have hrow : FirstPass.row skipUpto p row =
          ⟨p.rowNum + 1, p.targetRow, p.progressCounter + row.count⟩ := by
        rw [FirstPass.row, if_neg fun h => htarget h.1]
      have hrest := ih (p := ⟨p.rowNum + 1, p.targetRow, p.progressCounter + row.count⟩) htarget
      rw [List.foldl_cons, hrow, hrest, length_objects_cons, List.length_cons]
      dsimp only
      rw [Nat.add_assoc p.rowNum, Nat.add_comm 1, Nat.add_assoc p.progressCounter]

theorem exists_start (hstart : 1 ≤ skipUpto) (hreached : skipUpto ≤ (objects allData).length) :
    ∃ before row rest, allData = before ++ row :: rest ∧ (objects before).length < skipUpto ∧
      skipUpto ≤ (objects before).length + row.count := by
  induction allData generalizing skipUpto with
  | nil =>
      have : skipUpto ≤ 0 := hreached
      omega
  | cons row rows ih =>
      rw [length_objects_cons] at hreached
      by_cases hrow : skipUpto ≤ row.count
      · exact ⟨[], row, rows, rfl, hstart, by simpa [objects] using hrow⟩
      · obtain ⟨before, row', rest, rfl, hbelow, hat⟩ :=
          ih (show 1 ≤ skipUpto - row.count by omega) (by omega)
        refine ⟨row :: before, row', rest, rfl, ?_, ?_⟩
        · rw [length_objects_cons]
          omega
        · rw [length_objects_cons]
          omega

/-- The second pass starts behind the first row when it is the one found, and at the row found
otherwise. -/
theorem firstPass_found {before rest : List SizeRow}
    (hbelow : (objects before).length < skipUpto)
    (hat : skipUpto ≤ (objects before).length + row.count) :
    (firstPass skipUpto (before ++ row :: rest)).targetRow =
      if before = [] ∧ rest ≠ [] then 1 else before.length := by
  have hzero : 0 + (objects before).length < skipUpto := by omega
  have hbefore := foldl_row_below (p := ⟨0, 0, 0⟩) rfl hzero
  have hrow : FirstPass.row skipUpto ⟨0 + before.length, 0, 0 + (objects before).length⟩ row =
      ⟨before.length + 1, before.length, row.count⟩ := by
    rw [FirstPass.row, Nat.zero_add, Nat.zero_add, if_pos ⟨rfl, hat⟩]
  rw [firstPass, List.foldl_append, hbefore, List.foldl_cons, hrow]
  cases before with
  | cons first before =>
      rw [foldl_row_found (Nat.succ_ne_zero _), if_neg fun h => List.cons_ne_nil _ _ h.1]
  | nil =>
      cases rest with
      | nil => rfl
      | cons second rest =>
          have hsecond : FirstPass.row skipUpto ⟨([] : List SizeRow).length + 1, 0, row.count⟩
              second = ⟨2, 1, second.count⟩ := by
            have hreached : skipUpto ≤ row.count + second.count := by
              have : skipUpto ≤ 0 + row.count := hat
              omega
            rw [FirstPass.row, if_pos ⟨rfl, hreached⟩]
            rfl
          rw [List.length_nil, List.foldl_cons] at *
          rw [hsecond, foldl_row_found Nat.one_ne_zero, if_pos ⟨rfl, List.cons_ne_nil _ _⟩]

/-- What is printed as the number of objects is that of the second pass. -/
theorem firstPass_progressCounter (skipUpto : ℕ) (allData : List SizeRow) :
    (firstPass skipUpto allData).rowNum = allData.length ∧
      (firstPass skipUpto allData).targetRow ≤ allData.length ∧
      (firstPass skipUpto allData).progressCounter =
        (objects (allData.drop (firstPass skipUpto allData).targetRow)).length := by
  induction allData using List.reverseRecOn with
  | nil => exact ⟨rfl, Nat.le_refl _, rfl⟩
  | append_singleton rows row ih =>
      obtain ⟨hrowNum, htarget, hprogress⟩ := ih
      have hstep : firstPass skipUpto (rows ++ [row]) =
          FirstPass.row skipUpto (firstPass skipUpto rows) row := by
        rw [firstPass, List.foldl_append]
        rfl
      have hlength : (objects [row]).length = row.count := by
        rw [length_objects_cons]
        rfl
      rw [hstep, FirstPass.row, List.length_append, List.length_singleton]
      split
      case isTrue =>
        dsimp only
        rw [hrowNum, List.drop_left, hlength]
        exact ⟨rfl, Nat.le_succ _, rfl⟩
      case isFalse =>
        dsimp only
        rw [hrowNum, List.drop_append_of_le_length htarget, objects_append, List.length_append,
          hlength, hprogress]
        exact ⟨rfl, Nat.le_succ_of_le htarget, rfl⟩

/-! ## The second pass -/

/-- The nested loops go over the objects. -/
theorem foldlM_addRow (l : Load) (rows : List SizeRow) :
    rows.foldlM (addRow r skipUpto target) l =
      (objects rows).foldlM (addObject r skipUpto target) l := by
  induction rows generalizing l with
  | nil => rfl
  | cons row rows ih =>
      have hobjects : objects (row :: rows) = List.replicate row.count row ++ objects rows := rfl
      have hrow : addRow r skipUpto target l row =
          (List.replicate row.count row).foldlM (addObject r skipUpto target) l := by
        have hrange : List.replicate row.count row = (List.range row.count).map fun _ => row := by
          rw [List.map_const', List.length_range]
        rw [addRow, hrange, List.foldlM_map]
      rw [List.foldlM_cons, hobjects, List.foldlM_append, hrow]
      exact bind_congr fun l => ih l

/-- What is to be inserted of the objects that have been gone through. -/
def records (r : Runtime) (skipUpto : ℕ) (done : List SizeRow) : List ObjectRow :=
  (fromSerial skipUpto done).map fun p => holder r p.2 p.1

/-- The full batches are in the table, and the rest is queued. -/
structure Queued (r : Runtime) (skipUpto : ℕ) (done : List SizeRow) (l : Load) : Prop where
  serial : l.serial = done.length
  names : l.data.map Prod.fst = (l.data.map Prod.snd).map ObjectRow.name
  batches : ∃ sent, Cut 20000 (records r skipUpto done) sent (l.data.map Prod.snd) ∧
    l.table.Perm sent

theorem records_concat (done : List SizeRow) (row : SizeRow) :
    records r skipUpto (done ++ [row]) = records r skipUpto done ++
      if skipUpto ≤ done.length + 1 then [holder r (done.length + 1) row] else [] := by
  rw [records, fromSerial_concat, List.map_append, records]
  split
  case isTrue => rfl
  case isFalse => rfl

theorem mem_records {o : ObjectRow} (ho : o ∈ records r skipUpto done) :
    ∃ serial row, serial ≤ done.length ∧ o = holder r serial row := by
  obtain ⟨p, hp, rfl⟩ := List.mem_map.mp ho
  exact ⟨p.2, p.1, serial_le hp, rfl⟩

/-- The next object is neither in the table nor in the queue. -/
theorem Queued.fresh (hlower : LowersNames r.jdk) (hl : Queued r skipUpto done l)
    (row : SizeRow) :
    OBJ_EXISTS l.table (holder r (done.length + 1) row).nameLower = 0 ∧
      (holder r (done.length + 1) row).name ∉ l.data.map Prod.fst := by
  obtain ⟨sent, hcut, hperm⟩ := hl.batches
  have hearlier : ∀ o ∈ records r skipUpto done, ∃ serial row, serial ≤ done.length ∧
      o = holder r serial row := fun o ho => mem_records ho
  constructor
  · rw [OBJ_EXISTS, List.length_eq_zero_iff, List.filter_eq_nil_iff]
    intro o ho heq
    have hmem : o ∈ records r skipUpto done := by
      rw [← hcut.split]
      exact List.mem_append_left _ (hperm.mem_iff.mp ho)
    obtain ⟨serial, row', hserial, rfl⟩ := hearlier o hmem
    have hsame := hlower.serial_eq (of_decide_eq_true heq)
    omega
  · rw [hl.names]
    intro hname
    obtain ⟨o, ho, heq⟩ := List.mem_map.mp hname
    have hmem : o ∈ records r skipUpto done := by
      rw [← hcut.split]
      exact List.mem_append_right _ ho
    obtain ⟨serial, row', hserial, rfl⟩ := hearlier o hmem
    have hsame := name_serial_eq heq
    omega

/-- One turn of the inner loop. -/
theorem addObject_queued (hlower : LowersNames r.jdk) (htarget : target ≠ 0)
    (hl : Queued r skipUpto done l) (row : SizeRow) :
    ∃ l', addObject r skipUpto target l row = .ok l' ∧ Queued r skipUpto (done ++ [row]) l' := by
  obtain ⟨hnew, hname⟩ := hl.fresh hlower row
  obtain ⟨sent, hcut, hperm⟩ := hl.batches
  have hlength : (done ++ [row]).length = done.length + 1 := by simp
  have hrecords : records r skipUpto (done ++ [row]) = _ := records_concat done row
  rw [addObject, hl.serial]
  dsimp only
  by_cases hskip : done.length + 1 < skipUpto
  · rw [if_pos hskip]
    refine ⟨_, rfl, hlength.symm, hl.names, sent, ?_, hperm⟩
    rw [hrecords, if_neg (by omega), List.append_nil]
    exact hcut
  · have hnot : ¬ OBJ_EXISTS l.table
        (r.jdk.toLowerCase (String.ofList (TEST_SEC_010_D_D (done.length + 1) row.objClassId))) =
          1 := by
      intro hone
      exact absurd (hone.symm.trans hnew) (by decide)
    have hput := Foundation.Maps.put_of_not_mem (holder r (done.length + 1) row) hname
    change Foundation.Maps.put l.data
      (String.ofList (TEST_SEC_010_D_D (done.length + 1) row.objClassId)) _ = _ at hput
    have hqueue : (l.data ++ [((holder r (done.length + 1) row).name,
        holder r (done.length + 1) row)]).map Prod.snd =
          l.data.map Prod.snd ++ [holder r (done.length + 1) row] := List.map_append
    have hcount : (l.data ++ [((holder r (done.length + 1) row).name,
        holder r (done.length + 1) row)]).length =
          (l.data.map Prod.snd ++ [holder r (done.length + 1) row]).length := by
      rw [← hqueue, List.length_map]
    rw [if_pos (by omega)] at hrecords
    rw [if_neg hskip, if_neg hnot, if_neg htarget, hput, hcount, hqueue]
    split
    case isTrue hfull =>
      refine ⟨_, rfl, hlength.symm, rfl, _, hrecords ▸ hcut.send _ hfull, ?_⟩
      exact hperm.append (r.values_perm _)
    case isFalse hshort =>
      refine ⟨_, rfl, hlength.symm, ?_, sent, ?_, hperm⟩
      · rw [hqueue, List.map_append, List.map_append, hl.names]
        rfl
      · rw [hqueue, hrecords]
        exact hcut.keep _ (not_le.mp hshort)

theorem addObjects_queued (hlower : LowersNames r.jdk) (htarget : target ≠ 0)
    (hl : Queued r skipUpto done l) (rows : List SizeRow) :
    ∃ l', rows.foldlM (addObject r skipUpto target) l = .ok l' ∧
      Queued r skipUpto (done ++ rows) l' := by
  induction rows generalizing done l with
  | nil => exact ⟨l, rfl, (List.append_nil done).symm ▸ hl⟩
  | cons row rows ih =>
      obtain ⟨l₁, hstep, hl₁⟩ := addObject_queued hlower htarget hl row
      obtain ⟨l', hrun, hl'⟩ := ih hl₁
      rw [List.append_assoc] at hl'
      refine ⟨l', ?_, hl'⟩
      rw [List.foldlM_cons, hstep]
      exact hrun

/-- **What a load leaves**: the full batches of the objects from the row found on. -/
theorem insertObjectsFromCSV_spec (hlower : LowersNames r.jdk) (skipUpto : ℕ)
    (allData : List SizeRow) :
    ∃ sent rest, (insertObjectsFromCSV r skipUpto allData).Perm sent ∧
      Cut 20000 (records r skipUpto
        (objects (allData.drop (firstPass skipUpto allData).targetRow))) sent rest := by
  have hprogress := (firstPass_progressCounter skipUpto allData).2.2
  have hstart : Queued r skipUpto [] ⟨0, [], []⟩ :=
    ⟨rfl, rfl, [], ⟨rfl, Nat.dvd_zero _, by decide⟩, List.Perm.refl _⟩
  rw [insertObjectsFromCSV, foldlM_addRow]
  by_cases htarget : (firstPass skipUpto allData).progressCounter = 0
  · have hnone := List.eq_nil_of_length_eq_zero (hprogress.symm.trans htarget)
    obtain ⟨sent, hcut, hperm⟩ := hstart.batches
    rw [hnone]
    exact ⟨sent, _, hperm, hcut⟩
  · obtain ⟨l, hrun, hl⟩ := addObjects_queued hlower htarget hstart
      (objects (allData.drop (firstPass skipUpto allData).targetRow))
    obtain ⟨sent, hcut, hperm⟩ := hl.batches
    rw [hrun]
    exact ⟨sent, _, hperm, hcut⟩

/-! ## When the load covers the CSV -/

theorem summary_records (objs : List SizeRow) :
    (records r skipUpto objs).map summary = (fromSerial skipUpto objs).map objectOf := by
  rw [records, List.map_map]
  refine List.map_congr_left fun p _ => ?_
  have hsize : ((getSizedByteArray p.1.memSize).length : ℤ) = p.1.memSize.toInt := by
    rw [getSizedByteArray, List.length_replicate]
    exact Int.toNat_of_nonneg p.1.size_nonneg
  show (_, p.1.objClassId, ((getSizedByteArray p.1.memSize).length : ℤ)) = _
  rw [hsize]
  rfl

theorem length_records (hstart : 1 ≤ skipUpto) (objs : List SizeRow) :
    (records r skipUpto objs).length = objs.length + 1 - skipUpto := by
  rw [records, List.length_map, length_fromSerial hstart]

theorem count_eq_zero (h : (objects rows).length = 0) : ∀ e ∈ rows, e.count = 0 := by
  induction rows with
  | nil =>
      intro e he
      cases he
  | cons row rows ih =>
      rw [length_objects_cons] at h
      exact List.forall_mem_cons.mpr ⟨by omega, ih (by omega)⟩

theorem objects_eq_nil (h : ∀ e ∈ rows, e.count = 0) : objects rows = [] := by
  rw [objects, List.flatMap_eq_nil_iff]
  intro e he
  rw [h e he]
  rfl

/-- The rows before the second pass have no objects only when the start lies on top. -/
theorem startsOnTop (hstart : 1 ≤ skipUpto) (hreached : skipUpto ≤ (objects allData).length)
    (hnone : (objects (allData.take (firstPass skipUpto allData).targetRow)).length = 0) :
    StartsOnTop skipUpto allData := by
  obtain ⟨before, row, rest, rfl, hbelow, hat⟩ := exists_start hstart hreached
  rw [firstPass_found hbelow hat] at hnone
  by_cases hfirst : before = [] ∧ rest ≠ []
  · rw [if_pos hfirst] at hnone
    obtain ⟨rfl, -⟩ := hfirst
    have hcount := count_eq_zero hnone row List.mem_cons_self
    have hat' : skipUpto ≤ 0 + row.count := hat
    omega
  · rw [if_neg hfirst, List.take_left] at hnone
    refine ⟨before, row, rest, rfl, count_eq_zero hnone, by omega, fun hnil => ?_⟩
    by_contra hrest
    exact hfirst ⟨hnil, hrest⟩

/-- A load that covers the CSV has inserted as many objects as there are from the start on in all
of it, so none lie before the row found, and none are left in the queue. -/
theorem startsOnTop_of_covers (hlower : LowersNames r.jdk) (hstart : 1 ≤ skipUpto)
    (hreached : skipUpto ≤ (objects allData).length)
    (hcovers : Covers skipUpto allData (insertObjectsFromCSV r skipUpto allData)) :
    20000 ∣ (objects allData).length + 1 - skipUpto ∧ StartsOnTop skipUpto allData := by
  obtain ⟨sent, rest, hperm, hcut⟩ := insertObjectsFromCSV_spec hlower skipUpto allData
  have hrecords := length_records (r := r) hstart
    (objects (allData.drop (firstPass skipUpto allData).targetRow))
  have htotal := length_objects_split allData (firstPass skipUpto allData).targetRow
  have hsplit : sent.length + rest.length = (records r skipUpto
      (objects (allData.drop (firstPass skipUpto allData).targetRow))).length := by
    rw [← hcut.split, List.length_append]
  have hlength := hcovers.length_eq
  rw [List.length_map, List.length_map, hperm.length_eq, length_fromSerial hstart] at hlength
  have hrest : rest = [] := List.eq_nil_of_length_eq_zero (by omega)
  have hfull := hcut.rest_eq_nil_iff.mp hrest
  have hsame : (objects allData).length + 1 - skipUpto = (objects (allData.drop
      (firstPass skipUpto allData).targetRow)).length + 1 - skipUpto := by omega
  rw [hrecords, ← hsame] at hfull
  exact ⟨hfull, startsOnTop hstart hreached (by omega)⟩

theorem covers_of_behind (hlower : LowersNames r.jdk) (hstart : 1 ≤ skipUpto)
    (hbehind : (objects allData).length < skipUpto) :
    Covers skipUpto allData (insertObjectsFromCSV r skipUpto allData) := by
  obtain ⟨sent, rest, hperm, hcut⟩ := insertObjectsFromCSV_spec hlower skipUpto allData
  have hrecords : records r skipUpto
      (objects (allData.drop (firstPass skipUpto allData).targetRow)) = [] := by
    have htotal := length_objects_split allData (firstPass skipUpto allData).targetRow
    refine List.eq_nil_of_length_eq_zero ?_
    rw [length_records hstart]
    omega
  have hexpected : fromSerial skipUpto (objects allData) = [] := by
    refine List.eq_nil_of_length_eq_zero ?_
    rw [length_fromSerial hstart]
    omega
  obtain ⟨rfl, -⟩ := List.append_eq_nil_iff.mp (hcut.split.trans hrecords)
  rw [Covers, hperm.eq_nil, hexpected]
  exact List.Perm.refl _

theorem covers_of_startsOnTop (hlower : LowersNames r.jdk) (hstart : 1 ≤ skipUpto)
    (hfull : 20000 ∣ (objects allData).length + 1 - skipUpto)
    (htop : StartsOnTop skipUpto allData) :
    Covers skipUpto allData (insertObjectsFromCSV r skipUpto allData) := by
  obtain ⟨sent, rest, hperm, hcut⟩ := insertObjectsFromCSV_spec hlower skipUpto allData
  obtain ⟨empty, row, rest', rfl, hempty, hat, honly⟩ := htop
  have hobjects : objects (empty ++ row :: rest') = objects (row :: rest') := by
    rw [objects_append, objects_eq_nil hempty, List.nil_append]
  have htarget : (firstPass skipUpto (empty ++ row :: rest')).targetRow = empty.length := by
    rw [firstPass_found, if_neg]
    · rintro ⟨hnil, hrest⟩
      exact hrest (honly hnil)
    · rw [objects_eq_nil hempty]
      exact hstart
    · omega
  rw [htarget, List.drop_left] at hcut
  have hrest : rest = [] := by
    rw [hcut.rest_eq_nil_iff, length_records hstart, ← hobjects]
    exact hfull
  have hsent : sent = records r skipUpto (objects (row :: rest')) := by
    rw [← hcut.split, hrest, List.append_nil]
  rw [Covers, hobjects, ← summary_records (r := r), ← hsent]
  exact hperm.map _

/-- **A load covers the CSV exactly when** the start lies behind it, or the start lies on top and
the objects from it on fill the batches. -/
theorem insertObjectsFromCSV_covers_iff (hlower : LowersNames r.jdk) (hstart : 1 ≤ skipUpto)
    (allData : List SizeRow) :
    Covers skipUpto allData (insertObjectsFromCSV r skipUpto allData) ↔
      (objects allData).length < skipUpto ∨
        20000 ∣ (objects allData).length + 1 - skipUpto ∧ StartsOnTop skipUpto allData := by
  constructor
  · intro hcovers
    rcases Nat.lt_or_ge (objects allData).length skipUpto with hbehind | hreached
    · exact Or.inl hbehind
    · exact Or.inr (startsOnTop_of_covers hlower hstart hreached hcovers)
  · rintro (hbehind | ⟨hfull, htop⟩)
    · exact covers_of_behind hlower hstart hbehind
    · exact covers_of_startsOnTop hlower hstart hfull htop

/-! ## Two loads -/

/-- A runtime whose maps keep the order. -/
def sampleRuntime : Runtime := ⟨Jdk.ascii, id, fun _ => List.Perm.refl _, fun _ => ⟨0, 0, 0, 0, 0⟩⟩

theorem caseless_decimal (i : ℤ) : ∀ c ∈ decimal i, Caseless c := by
  intro c hc
  cases i with
  | ofNat n => exact Or.inl (isDigit_of_mem_digits hc)
  | negSucc n =>
      rcases List.mem_cons.mp hc with hdash | hdigit
      · exact Or.inr hdash
      · exact Or.inl (isDigit_of_mem_digits hdigit)

theorem caseless_padded (serial : ℕ) : ∀ c ∈ padded serial, Caseless c := by
  intro c hc
  rcases List.mem_append.mp hc with hzero | hdigit
  · rw [List.eq_of_mem_replicate hzero]
    exact Or.inl rfl
  · exact Or.inl (isDigit_of_mem_digits hdigit)

theorem map_toLower_caseless {s : List Char} (h : ∀ c ∈ s, Caseless c) :
    s.map Char.toLower = s := by
  refine (List.map_congr_left fun c hc => ?_).trans (List.map_id s)
  rcases toLower_cases c with hkept | ⟨hge, hle, -⟩
  · exact hkept
  · have hrange := (caseless_iff_toNat c).mp (h c hc)
    omega

theorem toLower_name (serial : ℕ) (classId : JInt) :
    (TEST_SEC_010_D_D serial classId).map Char.toLower =
      "testsec-".toList ++ (padded serial ++ '-' :: decimal classId.toInt) := by
  have hrest : ∀ c ∈ padded serial ++ '-' :: decimal classId.toInt, Caseless c := by
    intro c hc
    rcases List.mem_append.mp hc with hc | hc
    · exact caseless_padded serial c hc
    · rcases List.mem_cons.mp hc with hdash | hc
      · exact Or.inr hdash
      · exact caseless_decimal _ c hc
  have hword : "testSec-".toList.map Char.toLower = "testsec-".toList := by decide +kernel
  have hsplit : ("testSec-".toList ++ (padded serial ++ '-' :: decimal classId.toInt)).map
      Char.toLower = "testSec-".toList.map Char.toLower ++
        (padded serial ++ '-' :: decimal classId.toInt).map Char.toLower := List.map_append
  rw [map_toLower_caseless hrest, hword] at hsplit
  exact hsplit

theorem toLowerCase_ascii (s : List Char) :
    Jdk.ascii.toLowerCase (String.ofList s) = String.ofList (s.map Char.toLower) := by
  unfold Jdk.ascii
  dsimp only
  rw [String.toList_ofList]

theorem lowersNames_ascii : LowersNames Jdk.ascii := fun serial classId =>
  (toLowerCase_ascii _).trans (congrArg String.ofList (toLower_name serial classId))

/-- One row that fills a batch. -/
def fullRow : SizeRow := ⟨⟨4020, 100, 20000⟩, by decide, by decide⟩

theorem fullRow_count : fullRow.count = 20000 := by decide +kernel

theorem fullRow_covers : Covers 1 [fullRow] (insertObjectsFromCSV sampleRuntime 1 [fullRow]) := by
  have hlength : (objects [fullRow]).length = 20000 := by
    rw [length_objects_cons, fullRow_count]
    rfl
  refine (insertObjectsFromCSV_covers_iff (r := sampleRuntime) lowersNames_ascii
    (Nat.le_refl 1) _).mpr
    (Or.inr ⟨?_, [], fullRow, [], rfl, fun e he => absurd he List.not_mem_nil, ?_, fun _ => rfl⟩)
  · rw [hlength]
  · rw [fullRow_count]
    decide

/-- One object does not. -/
theorem one_object_never_inserted :
    ¬ ∀ (r : Runtime) (skipUpto : ℕ) (allData : List SizeRow), LowersNames r.jdk →
      1 ≤ skipUpto → Covers skipUpto allData (insertObjectsFromCSV r skipUpto allData) := by
  intro hclaim
  have hcovers := hclaim sampleRuntime 1 [⟨⟨4020, 100, 1⟩, by decide, by decide⟩]
    lowersNames_ascii (by decide)
  have hlength := hcovers.length_eq
  exact absurd hlength (by decide +kernel)

end AuroraSizing.SerialLoad

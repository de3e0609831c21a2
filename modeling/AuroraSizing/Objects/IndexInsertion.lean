import AuroraSizing.Objects.IndexReads
import Mathlib.Data.List.Infix

/-!
# Filling the index tables

`insertIndexRecordsFromCSV` builds one `insert` for each index table of the definition and
runs it for the objects it reads. What a placeholder is given is decided by what its kind
contains: the kinds of the columns come from the definition, the last two are `name` and
`nameLower`, and the test that is meant for the last one asks for `lower`.
-/

namespace AuroraSizing.IndexInsertion

open IndexBatches IndexReads MultiReads

/-- What the load takes from `java.lang`. A `double` is its bits. -/
structure Numbers where
  parseInt : String → Option JInt
  parseDouble : String → Option (BitVec 64)
  /-- The `%s` of a `double`. -/
  doubleText : BitVec 64 → String
  /-- `(int) Math.ceil(d)` -/
  ceil : BitVec 64 → JInt

/-- `String.contains` -/
def contains (s t : String) : Bool := decide (t.toList <:+: s.toList)

/-! ## The definition -/

/-- `Record`; its column id and its size are only parsed. -/
structure Record where
  colName : String
  colType : String
  numberOfObjects : JInt
  avgLength : BitVec 64

/-- One line of the CSV; `none` is an exception out of `mapifyCSV`. -/
def Record.ofLine (numbers : Numbers) : List String → Option (String × Record)
  | tableName :: colId :: colName :: colType :: colSize :: noOfObjects :: avgLength :: _ => do
      let _ ← numbers.parseInt colId
      let _ ← numbers.parseInt colSize
      let numberOfObjects ← numbers.parseInt noOfObjects
      let avgLength ← if avgLength.isEmpty then some 0 else numbers.parseDouble avgLength
      return (tableName, ⟨colName, colType, numberOfObjects, avgLength⟩)
  | _ => none

/-- The list of the table, with the record at its end. -/
def put (map : List (String × List Record)) (tableName : String) (rec : Record) :
    List (String × List Record) :=
  match map with
  | [] => [(tableName, [rec])]
  | (name, list) :: map =>
      if name = tableName then (name, list ++ [rec]) :: map
      else (name, list) :: put map tableName rec

def mapifyCSV (numbers : Numbers) (allData : List (List String)) :
    Option (List (String × List Record)) :=
  allData.foldlM (fun map line => do
    let (tableName, rec) ← Record.ofLine numbers line
    return put map tableName rec) []

/-- The kind of a column. -/
def kind (numbers : Numbers) (rec : Record) : String :=
  if contains rec.colType "String" then "String" ++ numbers.doubleText rec.avgLength
  else rec.colType

/-- `getInsertQueryDetails`: the kinds of the placeholders, in order. -/
def queryColoumMap (numbers : Numbers) (list : List Record) : List String :=
  list.map (kind numbers) ++ ["name", "nameLower"]

/-! ## One row -/

def str : String := "ABCDEFGHIJKLMNOPQRSTUVWXYZabcdefghijklmnopqrstuvwxyz"

/-- What `run` gives a placeholder of this kind; `none` is an exception. -/
def bound (jdk : Jdk) (numbers : Numbers) (kind name : String) (nextDouble millis : BitVec 64) :
    Option ColumnValue :=
  if contains kind "String" then do
    let d ← numbers.parseDouble (String.ofList (kind.toList.drop 6))
    let n := (numbers.ceil d).toInt
    if 0 ≤ n ∧ n ≤ str.toList.length then
      some (.varchar (String.ofList (str.toList.take n.toNat)))
    else none
  else if contains kind "Double" then some (.float nextDouble)
  else if contains kind "Date" || contains kind "Time" then some (.float millis)
  else if contains kind "lower" then some (.varchar (jdk.toLowerCase name))
  else some (.varchar name)

/-- The row of `insert into … (columns, name, nameLower) values (?, …)`. -/
def ofValues (colNames : List String) (values : List ColumnValue) : Option IndexRow :=
  match values.drop colNames.length with
  | [.varchar name, .varchar nameLower] => some ⟨colNames.zip values, name, nameLower⟩
  | _ => none

/-- What the task of one table meets. -/
structure Surroundings (table : ObjectsTable) where
  /-- The order in which the `k`-th `select` sees the objects. -/
  orders : ℕ → List ObjectRow
  perm : ∀ k, (orders k).Perm table.rows
  nextDouble : ℕ → ℕ → BitVec 64
  millis : ℕ → BitVec 64
  /-- A call of the `i`-th turn raises. -/
  raises : ℕ → Bool
  /-- What the index table held before. -/
  existing : List IndexRow
  /-- `executeBatch` and `commit` go through, with these rows in the table. -/
  executes : List IndexRow → List IndexRow → Bool

variable {table : ObjectsTable}

/-- `select name from objects limit 10000 offset …` -/
def Surroundings.page (env : Surroundings table) (k : ℕ) : List String :=
  (((env.orders k).drop (10000 * k)).take 10000).map ObjectRow.name

/-- The values of the `i`-th row, and the row they make. -/
def row (jdk : Jdk) (numbers : Numbers) (env : Surroundings table) (list : List Record) (i : ℕ)
    (name : String) : Option IndexRow := do
  let values ← (queryColoumMap numbers list).zipIdx.mapM fun p =>
    bound jdk numbers p.1 name (env.nextDouble i p.2) (env.millis i)
  ofValues (list.map Record.colName) values

/-! ## The task -/

structure Inserter where
  recsAdded : ℕ
  batch : List IndexRow
  inserted : List IndexRow

/-- `executeBatch` and `commit`; `none` is an exception. -/
def Inserter.executeBatch (env : Surroundings table) (t : Inserter) : Option Inserter :=
  if env.executes (env.existing ++ t.inserted) t.batch then
    some ⟨0, [], t.inserted ++ t.batch⟩
  else none

/-- `addBatch`, and every so often `executeBatch`. -/
def Inserter.add (env : Surroundings table) (t : Inserter) (r : IndexRow) : Option Inserter :=
  let t' : Inserter := ⟨t.recsAdded + 1, t.batch ++ [r], t.inserted⟩
  if 20000 < t.recsAdded then t'.executeBatch env else some t'

/-- The end of the loop: the rows inserted in all. -/
def Inserter.finish (env : Surroundings table) (t : Inserter) : List IndexRow :=
  match t.executeBatch env with
  | some t => t.inserted
  | none => t.inserted

/-- The loop of `run` with so many objects to go, in what is left of the `k`-th page. An
exception drops the batch. -/
def loop (jdk : Jdk) (numbers : Numbers) (env : Surroundings table) (list : List Record) :
    ℕ → List String → (k prev i : ℕ) → Inserter → List IndexRow
  | 0, _, _, _, _, t => t.finish env
  | _ + 1, [], _, _, _, t => t.finish env
  | n + 1, name :: rs, k, prev, i, t =>
      match if env.raises i then none else row jdk numbers env list i name with
      | none => t.inserted
      | some r =>
          match t.add env r with
          | none => t.inserted
          | some t =>
              if prev + 1 = 10000 then
                loop jdk numbers env list n (env.page (k + 1)) (k + 1) 0 (i + 1) t
              else loop jdk numbers env list n rs k (prev + 1) (i + 1) t

/-- `recordList.get(0).getNumberOfObjects()` -/
def objects (list : List Record) : ℕ :=
  match list with
  | [] => 0
  | rec :: _ => rec.numberOfObjects.toInt.toNat

/-- `IndexInsertionTask.run`: the rows it inserts. -/
def IndexInsertionTask.run (jdk : Jdk) (numbers : Numbers) (env : Surroundings table)
    (list : List Record) : List IndexRow :=
  loop jdk numbers env list (objects list) (env.page 0) 0 0 0 ⟨0, [], []⟩

/-- The rows inserted in each index table; every task has its own surroundings. -/
def insertIndexRecordsFromCSV (jdk : Jdk) (numbers : Numbers) (env : String → Surroundings table)
    (allData : List (List String)) : Option (List (String × List IndexRow)) := do
  let map ← mapifyCSV numbers allData
  return map.map fun e => (e.1, IndexInsertionTask.run jdk numbers (env e.1) e.2)

/-! ## The key -/

/-- The inserted rows have the lower-case key, and `getIdxManyByNameStreamFromCSV` finds each
under its own name. -/
structure Keyed (jdk : Jdk) (existing inserted : List IndexRow) : Prop where
  lower : ∀ r ∈ inserted, r.nameLower = jdk.toLowerCase r.name
  found : ∀ r ∈ inserted, r.toMsgOnSuccess ∈ ObjectRepository.getIdxManyByNameStreamFromCSV
    (Store.GET_MANY_INDEX_RECORDS jdk (existing ++ inserted) [r.name])

/-- However the load goes, what it inserts is keyed. -/
def KeepsKey (jdk : Jdk) (numbers : Numbers) (allData : List (List String))
    (table : ObjectsTable) : Prop :=
  ∀ (env : String → Surroundings table) (inserted : List (String × List IndexRow)),
    insertIndexRecordsFromCSV jdk numbers env allData = some inserted →
      ∀ e ∈ inserted, Keyed jdk (env e.1).existing e.2

/-- A column of strings has an average length that can be cut from `str`. -/
def Bindable (numbers : Numbers) (rec : Record) : Prop :=
  contains rec.colType "String" = true →
    ∃ d, numbers.parseDouble (numbers.doubleText rec.avgLength) = some d ∧
      0 ≤ (numbers.ceil d).toInt ∧ (numbers.ceil d).toInt ≤ str.toList.length

/-- The definition asks for objects and binds every column. -/
def Insertable (numbers : Numbers) (list : List Record) : Prop :=
  0 < objects list ∧ ∀ rec ∈ list, Bindable numbers rec

/-! ## What is bound -/

/-- Neither kind contains what is tested for: the `L` of `nameLower` is a capital. -/
theorem not_contains (t : String) (h : t ∈ ["String", "Double", "Date", "Time", "lower"]) :
    contains "name" t = false ∧ contains "nameLower" t = false := by
  revert t
  decide +kernel

theorem bound_of_not_contains (jdk : Jdk) (numbers : Numbers) {kind : String} (name : String)
    (nextDouble millis : BitVec 64)
    (h : ∀ t ∈ ["String", "Double", "Date", "Time", "lower"], contains kind t = false) :
    bound jdk numbers kind name nextDouble millis = some (.varchar name) := by
  have hString := h "String" (by simp)
  have hDouble := h "Double" (by simp)
  have hDate := h "Date" (by simp)
  have hTime := h "Time" (by simp)
  have hlower := h "lower" (by simp)
  simp [bound, hString, hDouble, hDate, hTime, hlower]

/-- The values of the columns of the definition. -/
def columnValues (jdk : Jdk) (numbers : Numbers) (env : Surroundings table) (list : List Record)
    (i : ℕ) (name : String) : Option (List ColumnValue) :=
  (list.map (kind numbers)).zipIdx.mapM fun p =>
    bound jdk numbers p.1 name (env.nextDouble i p.2) (env.millis i)

theorem length_of_mapM {α β : Type} {f : α → Option β} {l : List α} {l' : List β}
    (h : l.mapM f = some l') : l'.length = l.length := by
  induction l generalizing l' with
  | nil =>
      cases h
      rfl
  | cons a l ih =>
      rw [List.mapM_cons] at h
      obtain ⟨b, -, h⟩ := Option.bind_eq_some_iff.mp h
      obtain ⟨rest, hrest, h⟩ := Option.bind_eq_some_iff.mp h
      cases h
      rw [List.length_cons, List.length_cons, ih hrest]

/-- Both names of a row are the name that was read. -/
theorem row_eq (jdk : Jdk) (numbers : Numbers) (env : Surroundings table) (list : List Record)
    (i : ℕ) (name : String) :
    row jdk numbers env list i name =
      (columnValues jdk numbers env list i name).map fun values =>
        ⟨(list.map Record.colName).zip values, name, name⟩ := by
  have hname := fun d m => bound_of_not_contains jdk numbers name d m
    fun t ht => (not_contains t ht).1
  have hnameLower := fun d m => bound_of_not_contains jdk numbers name d m
    fun t ht => (not_contains t ht).2
  rw [row, queryColoumMap, List.zipIdx_append, List.mapM_append, ← columnValues]
  cases hvalues : columnValues jdk numbers env list i name with
  | none => rfl
  | some values =>
      have hlength : values.length = (list.map Record.colName).length := by
        rw [length_of_mapM hvalues, List.length_zipIdx, List.length_map, List.length_map]
      have hzip : (list.map Record.colName ++ []).zip
          (values ++ [ColumnValue.varchar name, ColumnValue.varchar name]) =
            (list.map Record.colName).zip values ++ [] := List.zip_append hlength.symm
      rw [List.append_nil, List.append_nil] at hzip
      simp [hname, hnameLower, ofValues, ← hlength, hzip]

/-! ## What the task inserts -/

variable {jdk : Jdk} {numbers : Numbers} {env : Surroundings table} {list : List Record}

theorem executeBatch_eq_some {t t' : Inserter} (h : t.executeBatch env = some t') :
    t'.inserted ++ t'.batch = t.inserted ++ t.batch := by
  unfold Inserter.executeBatch at h
  split at h
  · cases h
    exact List.append_nil _
  · cases h

theorem finish_subset {t : Inserter} {r : IndexRow} (h : r ∈ t.finish env) :
    r ∈ t.inserted ++ t.batch := by
  unfold Inserter.finish at h
  split at h
  case h_1 t' heq =>
    rw [← executeBatch_eq_some heq]
    exact List.mem_append_left _ h
  case h_2 => exact List.mem_append_left _ h

theorem add_eq_some {t t' : Inserter} {r : IndexRow} (h : t.add env r = some t') :
    t'.inserted ++ t'.batch = t.inserted ++ t.batch ++ [r] := by
  rw [List.append_assoc]
  unfold Inserter.add at h
  dsimp only at h
  split at h
  · exact executeBatch_eq_some h
  · cases h
    rfl

/-- The objects a page delivers are in the table. -/
theorem mem_page {k : ℕ} {name : String} (h : name ∈ env.page k) :
    ∃ o ∈ table.rows, o.name = name := by
  obtain ⟨o, ho, hname⟩ := List.mem_map.mp h
  exact ⟨o, (env.perm k).mem_iff.mp (List.mem_of_mem_drop (List.mem_of_mem_take ho)), hname⟩

/-- The row is that of an object of the table. -/
def OfObject (jdk : Jdk) (numbers : Numbers) (env : Surroundings table) (list : List Record)
    (r : IndexRow) : Prop :=
  ∃ i, ∃ o ∈ table.rows, row jdk numbers env list i o.name = some r

theorem loop_sound {r : IndexRow} (n : ℕ) (rs : List String) (k prev i : ℕ) (t : Inserter)
    (hrs : ∀ name ∈ rs, ∃ o ∈ table.rows, o.name = name)
    (h : r ∈ loop jdk numbers env list n rs k prev i t) :
    r ∈ t.inserted ++ t.batch ∨ OfObject jdk numbers env list r := by
  induction n generalizing rs k prev i t with
  | zero => exact .inl (finish_subset h)
  | succ n ih =>
      cases rs with
      | nil => exact .inl (finish_subset h)
      | cons name rs =>
          rw [loop] at h
          split at h
          case h_1 => exact .inl (List.mem_append_left _ h)
          case h_2 r' hrow =>
            split at h
            case h_1 => exact .inl (List.mem_append_left _ h)
            case h_2 t' hadd =>
              have hnext : r ∈ t'.inserted ++ t'.batch ∨ OfObject jdk numbers env list r := by
                split at h
                · exact ih _ _ _ _ _ (fun _ => mem_page) h
                · exact ih _ _ _ _ _ (fun name hmem => hrs name (List.mem_cons_of_mem _ hmem)) h
              rcases hnext with hmem | hobject
              · rw [add_eq_some hadd] at hmem
                rcases List.mem_append.mp hmem with hold | hnew
                · exact .inl hold
                · obtain rfl := List.mem_singleton.mp hnew
                  obtain ⟨o, ho, rfl⟩ := hrs name (List.mem_cons_self ..)
                  split at hrow
                  · cases hrow
                  · exact .inr ⟨i, o, ho, hrow⟩
              · exact .inr hobject

/-! ## What the definition allows -/

theorem isSome_mapM_iff {α β : Type} {f : α → Option β} {l : List α} :
    (∃ l', l.mapM f = some l') ↔ ∀ a ∈ l, ∃ b, f a = some b := by
  induction l with
  | nil => simp
  | cons a l ih =>
      rw [List.forall_mem_cons, ← ih, List.mapM_cons]
      constructor
      · rintro ⟨l', h⟩
        obtain ⟨b, hb, h⟩ := Option.bind_eq_some_iff.mp h
        obtain ⟨rest, hrest, -⟩ := Option.bind_eq_some_iff.mp h
        exact ⟨⟨b, hb⟩, rest, hrest⟩
      · rintro ⟨⟨b, hb⟩, rest, hrest⟩
        exact ⟨b :: rest, by rw [hb, hrest]; rfl⟩

theorem bound_kind_iff (jdk : Jdk) (numbers : Numbers) (rec : Record) (name : String)
    (nextDouble millis : BitVec 64) :
    (∃ v, bound jdk numbers (kind numbers rec) name nextDouble millis = some v) ↔
      Bindable numbers rec := by
  unfold Bindable
  by_cases hString : contains rec.colType "String" = true
  · have hkind : contains ("String" ++ numbers.doubleText rec.avgLength) "String" = true := by
      rw [contains, String.toList_append]
      exact decide_eq_true (List.prefix_append _ _).isInfix
    have hdrop : String.ofList (("String" ++ numbers.doubleText rec.avgLength).toList.drop 6) =
        numbers.doubleText rec.avgLength := by
      rw [String.toList_append]
      exact String.ofList_toList
    simp only [hString, forall_true_left, kind, if_true, bound, hkind, hdrop]
    cases hparse : numbers.parseDouble (numbers.doubleText rec.avgLength) with
    | none => simp
    | some d =>
        simp only [Option.bind_eq_bind, Option.bind_some, Option.some.injEq, exists_eq_left']
        split
        case isTrue h => exact ⟨fun _ => h, fun _ => ⟨_, rfl⟩⟩
        case isFalse h =>
          constructor
          · rintro ⟨v, hv⟩
            cases hv
          · intro hcut
            exact absurd hcut h
  · refine iff_of_true ?_ (fun h => absurd h hString)
    rw [kind, if_neg hString]
    unfold bound
    rw [if_neg hString]
    split_ifs
    all_goals exact ⟨_, rfl⟩

theorem columnValues_iff (jdk : Jdk) (numbers : Numbers) (env : Surroundings table)
    (list : List Record) (i : ℕ) (name : String) :
    (∃ values, columnValues jdk numbers env list i name = some values) ↔
      ∀ rec ∈ list, Bindable numbers rec := by
  rw [columnValues, isSome_mapM_iff]
  constructor
  · intro h rec hrec
    obtain ⟨m, hm⟩ := List.getElem?_of_mem (List.mem_map.mpr ⟨rec, hrec, rfl⟩)
    exact (bound_kind_iff jdk numbers rec name _ _).mp
      (h (kind numbers rec, m) (List.mk_mem_zipIdx_iff_getElem?.mpr hm))
  · intro h p hp
    obtain ⟨rec, hrec, hkind⟩ := List.mem_map.mp (List.fst_mem_of_mem_zipIdx hp)
    rw [← hkind]
    exact (bound_kind_iff jdk numbers rec name _ _).mpr (h rec hrec)

theorem run_sound {r : IndexRow} (h : r ∈ IndexInsertionTask.run jdk numbers env list) :
    Insertable numbers list ∧ ∃ o ∈ table.rows, r.name = o.name ∧ r.nameLower = o.name := by
  have hobjects : 0 < objects list := by
    refine Nat.pos_of_ne_zero fun hzero => ?_
    rw [IndexInsertionTask.run, hzero] at h
    cases finish_subset h
  rcases loop_sound _ _ _ _ _ _ (fun _ => mem_page) h with hmem | ⟨i, o, ho, hrow⟩
  · cases hmem
  · rw [row_eq] at hrow
    obtain ⟨values, hvalues, rfl⟩ := Option.map_eq_some_iff.mp hrow
    exact ⟨⟨hobjects, (columnValues_iff jdk numbers env list i o.name).mp ⟨values, hvalues⟩⟩,
      o, ho, rfl, rfl⟩

/-! ## A load that goes through -/

/-- Nothing raises and every batch goes through; the objects come in this order. -/
def smooth {table : ObjectsTable} (order : List ObjectRow) (h : order.Perm table.rows) :
    Surroundings table where
  orders _ := order
  perm _ := h
  nextDouble _ _ := 0
  millis _ := 0
  raises _ := false
  existing := []
  executes _ _ := true

variable {order : List ObjectRow} {hperm : order.Perm table.rows}

@[simp] theorem smooth_raises (i : ℕ) : (smooth order hperm).raises i = false := rfl

theorem smooth_add (t : Inserter) (r : IndexRow) :
    ∃ t', t.add (smooth order hperm) r = some t' := by
  unfold Inserter.add
  dsimp only
  split
  · exact ⟨_, rfl⟩
  · exact ⟨_, rfl⟩

/-- What was added before is inserted in the end. -/
theorem smooth_loop (h : ∀ rec ∈ list, Bindable numbers rec) {r : IndexRow} (n : ℕ)
    (rs : List String) (k prev i : ℕ) (t : Inserter) (hr : r ∈ t.inserted ++ t.batch) :
    r ∈ loop jdk numbers (smooth order hperm) list n rs k prev i t := by
  induction n generalizing rs k prev i t with
  | zero => exact hr
  | succ n ih =>
      cases rs with
      | nil => exact hr
      | cons name rs =>
          obtain ⟨values, hvalues⟩ :=
            (columnValues_iff jdk numbers (smooth order hperm) list i name).mpr h
          have hrow := row_eq jdk numbers (smooth order hperm) list i name
          rw [hvalues, Option.map_some] at hrow
          obtain ⟨t', hadd⟩ : ∃ t', t.add (smooth order hperm)
              ⟨(list.map Record.colName).zip values, name, name⟩ = some t' := smooth_add t _
          have hr' : r ∈ t'.inserted ++ t'.batch := by
            rw [add_eq_some hadd]
            exact List.mem_append_left _ hr
          rw [loop, smooth_raises, if_neg Bool.false_ne_true, hrow]
          dsimp only
          rw [hadd]
          dsimp only
          split
          · exact ih _ _ _ _ _ hr'
          · exact ih _ _ _ _ _ hr'

/-- The first object is inserted, under its own name twice. -/
theorem smooth_run (h : Insertable numbers list) {o : ObjectRow} {rest : List ObjectRow}
    (hperm : (o :: rest).Perm table.rows) :
    ∃ r ∈ IndexInsertionTask.run jdk numbers (smooth (o :: rest) hperm) list,
      r.name = o.name ∧ r.nameLower = o.name := by
  obtain ⟨hobjects, hbind⟩ := h
  obtain ⟨values, hvalues⟩ :=
    (columnValues_iff jdk numbers (smooth (o :: rest) hperm) list 0 o.name).mpr hbind
  have hrow := row_eq jdk numbers (smooth (o :: rest) hperm) list 0 o.name
  rw [hvalues, Option.map_some] at hrow
  refine ⟨⟨(list.map Record.colName).zip values, o.name, o.name⟩, ?_, rfl, rfl⟩
  obtain ⟨n, hn⟩ : ∃ n, objects list = n + 1 := ⟨objects list - 1, by omega⟩
  have hpage : (smooth (o :: rest) hperm).page 0 =
      o.name :: (rest.take 9999).map ObjectRow.name := rfl
  rw [IndexInsertionTask.run, hn, hpage, loop, smooth_raises, if_neg Bool.false_ne_true,
    hrow]
  exact smooth_loop hbind _ _ _ _ _ _ (List.mem_singleton_self _)

/-! ## When the key is kept -/

/-- **The load keeps the lower-case key exactly** for a definition that inserts nothing and
for objects whose names are in lower case. -/
theorem insertIndexRecordsFromCSV_keepsKey_iff (jdk : Jdk) (numbers : Numbers)
    (allData : List (List String)) (table : ObjectsTable) :
    KeepsKey jdk numbers allData table ↔
      ∀ map, mapifyCSV numbers allData = some map → ∀ e ∈ map, Insertable numbers e.2 →
        ∀ o ∈ table.rows, jdk.toLowerCase o.name = o.name := by
  constructor
  · intro h map hmap e he hinsertable o ho
    obtain ⟨before, after, hrows⟩ := List.append_of_mem ho
    have hperm : (o :: (before ++ after)).Perm table.rows := by
      rw [hrows]
      exact List.perm_middle.symm
    obtain ⟨r, hr, hname, hlower⟩ :
        ∃ r ∈ IndexInsertionTask.run jdk numbers (smooth _ hperm) e.2,
          r.name = o.name ∧ r.nameLower = o.name := smooth_run hinsertable hperm
    have hkeyed := h (fun _ => smooth _ hperm) _ (by rw [insertIndexRecordsFromCSV, hmap]; rfl)
      _ (List.mem_map.mpr ⟨e, he, rfl⟩)
    rw [← hname, ← hkeyed.lower r hr, hlower, hname]
  · intro h env inserted hinserted e he
    obtain ⟨map, hmap, hrun⟩ := Option.bind_eq_some_iff.mp hinserted
    cases hrun
    obtain ⟨e', he', rfl⟩ := List.mem_map.mp he
    have hkey : ∀ r ∈ IndexInsertionTask.run jdk numbers (env e'.1) e'.2,
        r.nameLower = jdk.toLowerCase r.name := by
      intro r hr
      obtain ⟨hinsertable, o, ho, hname, hlower⟩ := run_sound hr
      rw [hname, hlower, h map hmap e' he' hinsertable o ho]
    refine ⟨hkey, ?_⟩
    intro r hr
    refine List.mem_map.mpr ⟨r, List.mem_filter.mpr ⟨List.mem_append_right _ hr, ?_⟩, rfl⟩
    rw [decide_eq_true_eq, hkey r hr]
    exact List.mem_singleton_self _

/-! ## An object in mixed case -/

/-- Numbers of one digit; a `double` has no use here. -/
def oneDigit : Numbers where
  parseInt s := match s.toList with
    | [c] => if c.isDigit then some (BitVec.ofNat 32 (c.toNat - '0'.toNat)) else none
    | _ => none
  parseDouble _ := none
  doubleText _ := "0.0"
  ceil _ := 0

/-- One index table with one column and one object. -/
def priceOnly : List (List String) := [["idx", "1", "price", "Double", "8", "1", ""]]

def alphaObject : ObjectsTable where
  rows := [{ smallRow "Alpha" [] with nameLower := "alpha" }]
  objectTypeidName := List.nodup_singleton _
  objectLowerName := List.nodup_singleton _
  objectName := List.nodup_singleton _

/-- The row of `Alpha` gets `Alpha` for its lower-case key, and its name does not find it. -/
theorem alpha_not_found :
    insertIndexRecordsFromCSV Jdk.ascii oneDigit
        (fun _ => smooth alphaObject.rows (List.Perm.refl _)) priceOnly =
      some [("idx", [⟨[("price", .float 0)], "Alpha", "Alpha"⟩])] ∧
    Store.GET_MANY_INDEX_RECORDS Jdk.ascii [⟨[("price", .float 0)], "Alpha", "Alpha"⟩] ["Alpha"] =
      [] ∧
    ¬ KeepsKey Jdk.ascii oneDigit priceOnly alphaObject := by
  have hinserted : insertIndexRecordsFromCSV Jdk.ascii oneDigit
      (fun _ => smooth alphaObject.rows (List.Perm.refl _)) priceOnly =
        some [("idx", [⟨[("price", .float 0)], "Alpha", "Alpha"⟩])] := by decide +kernel
  have hfound : Store.GET_MANY_INDEX_RECORDS Jdk.ascii
      [⟨[("price", .float 0)], "Alpha", "Alpha"⟩] ["Alpha"] = [] := by decide +kernel
  refine ⟨hinserted, hfound, ?_⟩
  intro h
  have hkeyed := h _ _ hinserted _ (List.mem_singleton_self _)
  have hmem := hkeyed.found _ (List.mem_singleton_self _)
  have hempty : (smooth alphaObject.rows (List.Perm.refl _)).existing = [] := rfl
  rw [hempty, List.nil_append, hfound] at hmem
  cases hmem

end AuroraSizing.IndexInsertion

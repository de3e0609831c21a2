import AuroraSizing.Foundation.Doubles
import AuroraSizing.Foundation.TextKeys
import AuroraSizing.Objects.IndexInsertion

/-!
# The pages and batches of the index loader

`IndexInsertionTask.run` takes the objects in pages of 10000 and sends the rows in batches of
20002. `i`, `prev` with `offset` and `recsAdded` count on their own, but `i` is always the page
times its size and `prev`, and a batch only moves rows from one list to the next. So what is
inserted in the end is one row for each object up to the number asked for.
-/

namespace AuroraSizing.IndexInsertion

open Foundation.Doubles IndexBatches

/-- On this `double`, `java.lang` prints what it parses back, and rounds up. -/
structure Numbers.Documented (numbers : Numbers) (d : BitVec 64) (v : ℚ) : Prop where
  value : Foundation.Doubles.value d = some v
  parsed : numbers.parseDouble (numbers.doubleText d) = some d
  ceil : (numbers.ceil d).toInt = max (-2 ^ 31) (min ⌈v⌉ (2 ^ 31 - 1))

/-- Every `select` sees the objects in this order, and the database fails nowhere. -/
structure Surroundings.Steady {table : ObjectsTable} (env : Surroundings table)
    (order : List ObjectRow) : Prop where
  orders : ∀ k, env.orders k = order
  raises : ∀ i, env.raises i = false
  executes : ∀ existing batch, env.executes existing batch = true

/-- The rows inserted are those of the first objects of the order, as many as the definition
asks for. -/
structure InsertsFirst (jdk : Jdk) (numbers : Numbers) {table : ObjectsTable}
    (env : Surroundings table) (list : List Record) (order : List ObjectRow)
    (inserted : List IndexRow) : Prop where
  names : inserted.map IndexRow.name = (order.take (objects list)).map ObjectRow.name
  rows : List.Forall₂ (fun (p : ObjectRow × ℕ) r => row jdk numbers env list p.2 p.1.name = some r)
    (order.take (objects list)).zipIdx inserted

variable {jdk : Jdk} {numbers : Numbers} {table : ObjectsTable} {env : Surroundings table}
  {list : List Record} {order : List ObjectRow}

/-- A length above -1 and up to 52 is cut from `str`. -/
theorem bindable_of_documented {rec : Record} {v : ℚ}
    (h : numbers.Documented rec.avgLength v) (hlow : -1 < v) (hhigh : v ≤ 52) :
    Bindable numbers rec := by
  intro _
  have hceil := h.ceil
  have hnonneg : 0 ≤ ⌈v⌉ := by
    have : (-1 : ℤ) < ⌈v⌉ := Int.lt_ceil.mpr (by exact_mod_cast hlow)
    omega
  have hle : ⌈v⌉ ≤ 52 := Int.ceil_le.mpr (by exact_mod_cast hhigh)
  have hlength : str.toList.length = 52 := by decide
  refine ⟨rec.avgLength, h.parsed, ?_, ?_⟩
  · rw [hceil]
    omega
  · rw [hceil, hlength]
    omega

/-! ## One turn -/

theorem Surroundings.Steady.page (h : env.Steady order) (k : ℕ) :
    env.page k = ((order.drop (10000 * k)).take 10000).map ObjectRow.name := by
  rw [Surroundings.page, h.orders]

theorem Surroundings.Steady.finish (h : env.Steady order) (t : Inserter) :
    t.finish env = t.inserted ++ t.batch := by
  rw [Inserter.finish, Inserter.executeBatch, if_pos (h.executes _ _)]

/-- A row is added, and waits in the batch or is inserted. -/
theorem Surroundings.Steady.add (h : env.Steady order) (t : Inserter) (r : IndexRow) :
    ∃ t', t.add env r = some t' ∧ t'.inserted ++ t'.batch = t.inserted ++ t.batch ++ [r] := by
  have hadd : ∃ t', t.add env r = some t' := by
    unfold Inserter.add Inserter.executeBatch
    dsimp only
    split
    · rw [if_pos (h.executes _ _)]
      exact ⟨_, rfl⟩
    · exact ⟨_, rfl⟩
  obtain ⟨t', ht'⟩ := hadd
  exact ⟨t', ht', add_eq_some ht'⟩

/-- From any place in any page, the loop inserts what waits and a row for each object up to the
number left. -/
theorem loop_inserts (h : env.Steady order) (hbind : ∀ rec ∈ list, Bindable numbers rec)
    (n k prev : ℕ) (hprev : prev < 10000) (t : Inserter) :
    ∃ rows,
      loop jdk numbers env list n
          (((order.drop (10000 * k + prev)).take (10000 - prev)).map ObjectRow.name) k prev
          (10000 * k + prev) t =
        t.inserted ++ t.batch ++ rows ∧
      List.Forall₂ (fun (p : ObjectRow × ℕ) r => row jdk numbers env list p.2 p.1.name = some r)
        (((order.drop (10000 * k + prev)).take n).zipIdx (10000 * k + prev)) rows := by
  induction n generalizing k prev t with
  | zero =>
      refine ⟨[], ?_, ?_⟩
      · rw [loop, h.finish, List.append_nil]
      · rw [List.take_zero]
        exact List.Forall₂.nil
  | succ n ih =>
      obtain ⟨room, hroom⟩ : ∃ room, 10000 - prev = room + 1 := ⟨9999 - prev, by omega⟩
      cases hrest : order.drop (10000 * k + prev) with
      | nil =>
          refine ⟨[], ?_, ?_⟩
          · rw [List.take_nil, List.map_nil, loop, h.finish, List.append_nil]
          · rw [List.take_nil]
            exact List.Forall₂.nil
      | cons o rest =>
          have hdrop : order.drop (10000 * k + prev + 1) = rest := by
            rw [← List.drop_drop, hrest, List.drop_succ_cons, List.drop_zero]
          obtain ⟨values, hvalues⟩ :=
            (columnValues_iff jdk numbers env list (10000 * k + prev) o.name).mpr hbind
          have hrow := row_eq jdk numbers env list (10000 * k + prev) o.name
          rw [hvalues, Option.map_some] at hrow
          obtain ⟨t', hadd, ht'⟩ :=
            h.add t ⟨(list.map Record.colName).zip values, o.name, o.name⟩
          have hnext : ∃ rows,
              loop jdk numbers env list (n + 1)
                  (((o :: rest).take (10000 - prev)).map ObjectRow.name) k prev
                  (10000 * k + prev) t =
                t'.inserted ++ t'.batch ++ rows ∧
              List.Forall₂
                (fun (p : ObjectRow × ℕ) r => row jdk numbers env list p.2 p.1.name = some r)
                ((rest.take n).zipIdx (10000 * k + prev + 1)) rows := by
            rw [hroom, List.take_succ_cons, List.map_cons, loop, h.raises,
              if_neg Bool.false_ne_true, hrow]
            dsimp only
            rw [hadd]
            dsimp only
            split
            case isTrue hpage =>
              -- the next page starts where this one ended
              obtain ⟨rows, hloop, hrows⟩ := ih (k + 1) 0 (by omega) t'
              have hstart : 10000 * (k + 1) + 0 = 10000 * k + prev + 1 := by omega
              rw [hstart, hdrop] at hloop hrows
              refine ⟨rows, ?_, hrows⟩
              rw [h.page, ← hloop]
              have hpageStart : 10000 * (k + 1) = 10000 * k + prev + 1 := by omega
              rw [hpageStart, hdrop]
            case isFalse hpage =>
              obtain ⟨rows, hloop, hrows⟩ := ih k (prev + 1) (by omega) t'
              have hstart : 10000 * k + (prev + 1) = 10000 * k + prev + 1 := by omega
              have hleft : 10000 - (prev + 1) = room := by omega
              rw [hstart, hdrop] at hloop hrows
              rw [hleft] at hloop
              exact ⟨rows, hloop, hrows⟩
          obtain ⟨rows, hloop, hrows⟩ := hnext
          refine ⟨⟨(list.map Record.colName).zip values, o.name, o.name⟩ :: rows, ?_, ?_⟩
          · rw [hloop, ht', List.append_assoc, List.singleton_append]
          · rw [List.take_succ_cons, List.zipIdx_cons]
            exact List.Forall₂.cons hrow hrows

/-! ## The whole task -/

/-- A row has the name of the object it is of. -/
theorem map_name_of_rows {objs : List ObjectRow} {i : ℕ} {rows : List IndexRow}
    (h : List.Forall₂ (fun (p : ObjectRow × ℕ) r => row jdk numbers env list p.2 p.1.name = some r)
      (objs.zipIdx i) rows) :
    rows.map IndexRow.name = objs.map ObjectRow.name := by
  induction objs generalizing i rows with
  | nil =>
      cases h
      rfl
  | cons o objs ih =>
      cases h with
      | cons hrow hrows =>
          rw [row_eq] at hrow
          obtain ⟨values, -, rfl⟩ := Option.map_eq_some_iff.mp hrow
          rw [List.map_cons, List.map_cons, ih hrows]

/-- **The loader loses and repeats nothing at its boundaries**, with every length of a `String`
column above -1 and up to 52. -/
theorem run_insertsFirst (jdk : Jdk) (numbers : Numbers) {table : ObjectsTable}
    (env : Surroundings table) (list : List Record) (order : List ObjectRow)
    (hsteady : env.Steady order)
    (hlengths : ∀ rec ∈ list, contains rec.colType "String" = true →
      ∃ v, numbers.Documented rec.avgLength v ∧ -1 < v ∧ v ≤ 52) :
    InsertsFirst jdk numbers env list order (IndexInsertionTask.run jdk numbers env list) := by
  have hbind : ∀ rec ∈ list, Bindable numbers rec := by
    intro rec hrec hString
    obtain ⟨v, hdocumented, hlow, hhigh⟩ := hlengths rec hrec hString
    exact bindable_of_documented hdocumented hlow hhigh hString
  obtain ⟨rows, hloop, hrows⟩ :=
    loop_inserts hsteady hbind (objects list) 0 0 (by omega) ⟨0, [], []⟩
  have hrun : IndexInsertionTask.run jdk numbers env list = rows := by
    rw [IndexInsertionTask.run, hsteady.page]
    exact hloop
  rw [hrun]
  exact ⟨map_name_of_rows hrows, hrows⟩

/-! ## Two lengths -/

/-- `java.lang` on the lengths 5 and -1. -/
def twoLengths : Numbers where
  parseInt s := if s = "1" then some 1 else none
  parseDouble s :=
    if s = "5.0" then some 0x4014000000000000#64
    else if s = "-1.0" then some 0xBFF0000000000000#64
    else none
  doubleText d := if d = 0x4014000000000000#64 then "5.0" else "-1.0"
  ceil d := if d = 0x4014000000000000#64 then 5 else -1

def stringColumn (avgLength : BitVec 64) : Record where
  colName := "note"
  colType := "String"
  numberOfObjects := 1
  avgLength := avgLength

theorem twoLengths_five : twoLengths.Documented 0x4014000000000000#64 5 where
  value := by decide +kernel
  parsed := by decide +kernel
  ceil := by
    have hceil : ⌈(5 : ℚ)⌉ = 5 := by norm_num
    rw [hceil]
    decide +kernel

theorem twoLengths_neg_one : twoLengths.Documented 0xBFF0000000000000#64 (-1) where
  value := by decide +kernel
  parsed := by decide +kernel
  ceil := by
    have hceil : ⌈(-1 : ℚ)⌉ = -1 := by norm_num
    rw [hceil]
    decide +kernel

theorem smooth_steady {table : ObjectsTable} {order : List ObjectRow}
    (h : order.Perm table.rows) : (smooth order h).Steady order where
  orders _ := rfl
  raises _ := rfl
  executes _ _ := rfl

/-- An object that is called by its number. -/
def numberedRow (i : ℕ) : ObjectRow := MultiReads.smallRow (String.ofList (Nat.toDigits 10 i)) []

theorem numberedRow_name_injective : Function.Injective fun i => (numberedRow i).name := by
  intro i j h
  exact Foundation.TextKeys.digits_injective (String.ofList_injective h)

def numbered (n : ℕ) : ObjectsTable where
  rows := (List.range n).map numberedRow
  objectTypeidName := by
    rw [Foundation.KeyedRows.Unique, List.map_map]
    refine List.nodup_range.map ?_
    intro i j h
    exact numberedRow_name_injective (Prod.mk.inj h).2
  objectLowerName := by
    rw [Foundation.KeyedRows.Unique, List.map_map]
    exact List.nodup_range.map numberedRow_name_injective
  objectName := by
    rw [Foundation.KeyedRows.Unique, List.map_map]
    exact List.nodup_range.map numberedRow_name_injective

/-- A definition that asks for 25001 objects. -/
def manyColumn : Record := { stringColumn 0x4014000000000000#64 with numberOfObjects := 25001 }

/-- Three pages and one full batch, out of a table that holds more. -/
theorem numbered_insertsFirst :
    InsertsFirst Jdk.ascii twoLengths (smooth (numbered 30005).rows (List.Perm.refl _))
      [manyColumn] (numbered 30005).rows
      (IndexInsertionTask.run Jdk.ascii twoLengths
        (smooth (numbered 30005).rows (List.Perm.refl _)) [manyColumn]) ∧
    (IndexInsertionTask.run Jdk.ascii twoLengths
      (smooth (numbered 30005).rows (List.Perm.refl _)) [manyColumn]).length = 25001 := by
  have hinserts : InsertsFirst Jdk.ascii twoLengths
      (smooth (numbered 30005).rows (List.Perm.refl _)) [manyColumn] (numbered 30005).rows
      (IndexInsertionTask.run Jdk.ascii twoLengths
        (smooth (numbered 30005).rows (List.Perm.refl _)) [manyColumn]) := by
    refine run_insertsFirst _ _ _ _ _ (smooth_steady _) ?_
    intro rec hrec _
    obtain rfl := List.mem_singleton.mp hrec
    exact ⟨5, twoLengths_five, by norm_num, by norm_num⟩
  refine ⟨hinserts, ?_⟩
  have hlength := congrArg List.length hinserts.names
  have hobjects : objects [manyColumn] = 25001 := by decide
  have hrows : (numbered 30005).rows.length = 30005 := by
    rw [numbered, List.length_map, List.length_range]
  rw [List.length_map, List.length_map, List.length_take, hobjects, hrows] at hlength
  exact hlength

/-- `substring` refuses a length of -1, which is not above 52: nothing is inserted. -/
theorem neg_one_inserts_nothing :
    (smooth alphaObject.rows (List.Perm.refl _)).Steady alphaObject.rows ∧
    twoLengths.Documented (stringColumn 0xBFF0000000000000#64).avgLength (-1) ∧
    (-1 : ℚ) ≤ 52 ∧
    IndexInsertionTask.run Jdk.ascii twoLengths (smooth alphaObject.rows (List.Perm.refl _))
      [stringColumn 0xBFF0000000000000#64] = [] ∧
    ¬ InsertsFirst Jdk.ascii twoLengths (smooth alphaObject.rows (List.Perm.refl _))
      [stringColumn 0xBFF0000000000000#64] alphaObject.rows
      (IndexInsertionTask.run Jdk.ascii twoLengths (smooth alphaObject.rows (List.Perm.refl _))
        [stringColumn 0xBFF0000000000000#64]) := by
  have hrun : IndexInsertionTask.run Jdk.ascii twoLengths
      (smooth alphaObject.rows (List.Perm.refl _)) [stringColumn 0xBFF0000000000000#64] = [] := by
    decide +kernel
  refine ⟨smooth_steady _, twoLengths_neg_one, by norm_num, hrun, ?_⟩
  intro h
  have hnames := h.names
  rw [hrun] at hnames
  cases hnames

end AuroraSizing.IndexInsertion

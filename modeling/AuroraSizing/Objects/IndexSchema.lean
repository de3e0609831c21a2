import AuroraSizing.Foundation.Maps
import AuroraSizing.Objects.IndexPages

/-!
# The schema of the index tables

Three calls write the columns of an index table down: `createIndexTable`, the `insert` of
`getInsertQueryDetails` with its placeholders numbered from 1, and the rows that `run` binds.
`getIndexRecord` takes the columns as the database lists them, all but the last two. They stay
aligned because each lists the columns of the definition first, in its order.
-/

namespace AuroraSizing.IndexSchema

open Foundation.Doubles Foundation.KeyedRows Foundation.Maps Foundation.SqlText IndexBatches
  IndexReads IndexInsertion MultiReads

/-! ## Texts -/

def format (f : String) (args : List String) : String := String.ofList (formatS f.toList args)

/-- `String.join` -/
def join (sep : String) (parts : List String) : List Char :=
  sep.toList.intercalate (parts.map String.toList)

def INSERT_CSV_INDEX_RECORD : String := "insert into %s (%s) values (%s)"

/-- An `insert` with its columns and its placeholders. -/
structure Insert where
  table : String
  columns : List String
  placeholders : ℕ

def Insert.text (s : Insert) : List Char :=
  "insert into ".toList ++ (s.table.toList ++ (" (".toList ++ (join ", " s.columns ++
    (") values (".toList ++ (join "," (List.replicate s.placeholders "?") ++ ")".toList)))))

/-! ## `getInsertQueryDetails` -/

structure QueryData where
  query : List Char
  queryColoumMap : List (ℕ × String)

/-- The variables of the loop over the columns. -/
structure QueryBuilder where
  colNames : String
  queryMap : List (ℕ × String)
  colNo : ℕ

def QueryBuilder.add (numbers : Numbers) (b : QueryBuilder) (rec : Record) : QueryBuilder where
  colNames := format "%s%s%s" [b.colNames, rec.colName, ", "]
  queryMap := put b.queryMap b.colNo (kind numbers rec)
  colNo := b.colNo + 1

def getInsertQueryDetails (numbers : Numbers) (tableName : String) (list : List Record) :
    QueryData :=
  let b := list.foldl (QueryBuilder.add numbers) ⟨"", [], 1⟩
  let colNames := format "%s%s%s" [b.colNames, "name, nameLower", ""]
  { query := formatS INSERT_CSV_INDEX_RECORD.toList
      [tableName, colNames, String.ofList (join "," (List.replicate (list.length + 2) "?"))]
    queryColoumMap := put (put b.queryMap b.colNo "name") (b.colNo + 1) "nameLower" }

/-- The calls of `setString` and `setDouble` for one row, over the keys of the map in some
order; `none` is an exception. -/
def bindings {table : ObjectsTable} (jdk : Jdk) (numbers : Numbers) (env : Surroundings table)
    (tablemap : List (ℕ × String)) (i : ℕ) (name : String) (keys : List ℕ) :
    Option (List (ℕ × ColumnValue)) :=
  keys.mapM fun j => do
    let kind ← column tablemap j
    let v ← bound jdk numbers kind name (env.nextDouble i (j - 1)) (env.millis i)
    return (j, v)

/-! ## `createIndexTable` -/

inductive ColType where
  | varchar
  | float
deriving DecidableEq, Repr

def ColType.text : ColType → String
  | .varchar => "varchar"
  | .float => "float"

/-- `col_type_val` -/
def colTypeVal (rec : Record) : ColType :=
  if contains rec.colType "String" then .varchar else .float

/-- What is written behind the columns. -/
def keyColumns : String :=
  "name varchar(32) NOT NULL, nameLower varchar(32) NOT NULL, PRIMARY KEY(name) )"

/-- A `create table` with its columns; the two keys come last. -/
structure CreateTable where
  table : String
  columns : List (String × ColType)

def CreateTable.text (c : CreateTable) : List Char :=
  "create table ".toList ++ (c.table.toList ++ (" (".toList ++
    ((c.columns.flatMap fun col => ' ' :: (col.1.toList ++
      ' ' :: (col.2.text.toList ++ ' ' :: "NOT NULL, ".toList))) ++
    ' ' :: keyColumns.toList)))

/-- The text that is executed for one table. -/
def createQuery (tableName : String) (list : List Record) : String :=
  let query := list.foldl (fun query rec =>
    format "%s %s %s %s" [query, rec.colName, (colTypeVal rec).text, "NOT NULL, "])
    (format "create table %s (" [tableName])
  format "%s %s" [query, keyColumns]

def createTable (tableName : String) (list : List Record) : CreateTable where
  table := tableName
  columns := list.map fun rec => (rec.colName, colTypeVal rec)

def typeOf : ColumnValue → ColType
  | .varchar _ => .varchar
  | .float _ => .float

/-! ## The tables -/

/-- The columns of a table, by the names the database gives them. -/
abbrev Schema := List (String × ColType)

/-- What the tables of a database are like. -/
structure Dialect where
  /-- The name of a column or a table that is written so. -/
  fold : String → String
  typeName : ColType → String
  varchar :
    (contains (typeName .varchar) "VARCHAR" || contains (typeName .varchar) "varchar") = true
  float : (contains (typeName .float) "VARCHAR" || contains (typeName .float) "varchar") = false

def CreateTable.schema (dialect : Dialect) (c : CreateTable) : Schema :=
  (c.columns.map fun col => (dialect.fold col.1, col.2)) ++
    [(dialect.fold "name", .varchar), (dialect.fold "nameLower", .varchar)]

/-- The tables there are afterwards; `none` is an exception, and nothing is created. -/
def createIndexTable (dialect : Dialect) (tables : List (String × Schema))
    (map : List (String × List Record)) : Option (List (String × Schema)) :=
  map.foldlM (fun tables e =>
    let columns := (createTable e.1 e.2).schema dialect
    if dialect.fold e.1 ∈ tables.map Prod.fst then none
    else if (columns.map Prod.fst).Nodup then some (tables ++ [(dialect.fold e.1, columns)])
    else none) tables

/-- The values by the columns they are inserted in. -/
def assigned (r : IndexRow) : List (String × ColumnValue) :=
  r.columns ++ [("name", .varchar r.name), ("nameLower", .varchar r.nameLower)]

/-- The row as the table holds it. -/
def store (dialect : Dialect) (columns : Schema) (r : IndexRow) : Option (List ColumnValue) :=
  (columns.map Prod.fst).mapM (column ((assigned r).map fun a => (dialect.fold a.1, a.2)))

/-! ## `getIndexRecord` -/

/-- One column of the result; its values are of its type. -/
def readColumn (dialect : Dialect) (indexRecDTO : IndexRecDTO)
    (c : (String × ColType) × ColumnValue) : IndexRecDTO :=
  let colType := dialect.typeName c.1.2
  if contains colType "VARCHAR" || contains colType "varchar" then
    match c.2 with
    | .varchar s => { indexRecDTO with stringMap := put indexRecDTO.stringMap c.1.1 s }
    | .float _ => indexRecDTO
  else
    match c.2 with
    | .float bits => { indexRecDTO with doubleMap := put indexRecDTO.doubleMap c.1.1 bits }
    | .varchar _ => indexRecDTO

/-- `rs.getString(column)` -/
def getString (columns : Schema) (cells : List ColumnValue) (name : String) : Option String :=
  match column ((columns.map Prod.fst).zip cells) name with
  | some (.varchar s) => some s
  | _ => none

def readRow (dialect : Dialect) (columns : Schema) (cells : List ColumnValue) : IndexRecDTO :=
  let countOfCols := columns.length
  ((columns.zip cells).take (countOfCols - 2)).foldl (readColumn dialect)
    ⟨(getString columns cells (dialect.fold "name")).getD "", [], []⟩

/-- `rows` is the table in some order. -/
def getIndexRecord (dialect : Dialect) (tables : List (String × Schema))
    (rows : List (List ColumnValue)) (objKey tableName : String) : Option IndexRecDTO :=
  match column tables (dialect.fold tableName) with
  | none => none
  | some columns =>
      (rows.filter fun cells =>
          decide (getString columns cells (dialect.fold "nameLower") = some objKey)).foldl
        (fun _ cells => some (readRow dialect columns cells)) none

/-! ## The alignment -/

/-- Every placeholder is bound once, with the value and the type of its column. -/
structure BoundOnce (list : List Record) (r : IndexRow) (calls : List (ℕ × ColumnValue)) :
    Prop where
  once : (calls.map Prod.fst).Perm (List.range' 1 (list.length + 2))
  values : ∀ c ∈ calls, ((assigned r).map Prod.snd)[c.1 - 1]? = some c.2
  types : ∀ c ∈ calls, (list.map colTypeVal ++ [.varchar, .varchar])[c.1 - 1]? = some (typeOf c.2)

/-- The strings of the row are in one map and the other columns in the other, each once and with
its value, and neither key is there. -/
structure ReadsBack (dialect : Dialect) (list : List Record) (r : IndexRow) (d : IndexRecDTO) :
    Prop where
  strings : d.stringMap.map Prod.fst =
    (list.filter fun rec => decide (rec.colType = "String")).map fun rec => dialect.fold rec.colName
  doubles : d.doubleMap.map Prod.fst =
    (list.filter fun rec => decide (rec.colType ≠ "String")).map fun rec => dialect.fold rec.colName
  once : (d.stringMap.map Prod.fst ++ d.doubleMap.map Prod.fst).Nodup
  stringValues : ∀ c s, (c, ColumnValue.varchar s) ∈ r.columns → (dialect.fold c, s) ∈ d.stringMap
  doubleValues : ∀ c bits, (c, ColumnValue.float bits) ∈ r.columns →
    (dialect.fold c, bits) ∈ d.doubleMap
  noKeys : ∀ k ∈ ["name", "nameLower"],
    dialect.fold k ∉ d.stringMap.map Prod.fst ++ d.doubleMap.map Prod.fst

/-- The table is new, and its names are its primary key. -/
structure Fresh {table : ObjectsTable} (env : Surroundings table) : Prop where
  existing : env.existing = []
  primaryKey : ∀ existing batch, env.executes existing batch = true →
    Foundation.KeyedRows.Unique IndexRow.name (existing ++ batch)

/-- The records of one table, in the order of the CSV. -/
def recordsOf (numbers : Numbers) (allData : List (List String)) (tableName : String) :
    List Record :=
  allData.filterMap fun line =>
    match Record.ofLine numbers line with
    | some (t, rec) => if t = tableName then some rec else none
    | none => none

/-- No two columns have one name in the database. -/
def Distinct (dialect : Dialect) (list : List Record) : Prop :=
  ((list.map Record.colName ++ ["name", "nameLower"]).map dialect.fold).Nodup

/-- A CSV as it is meant: four types, lengths that can be cut, and columns with names of their
own. -/
structure IndexDefinition (numbers : Numbers) (dialect : Dialect) (allData : List (List String)) :
    Prop where
  types : ∀ line ∈ allData, ∀ t rec, Record.ofLine numbers line = some (t, rec) →
    rec.colType ∈ ["String", "Date", "Time", "Double"]
  lengths : ∀ line ∈ allData, ∀ t rec, Record.ofLine numbers line = some (t, rec) →
    rec.colType = "String" → ∃ v, numbers.Documented rec.avgLength v ∧ 0 ≤ v ∧ v ≤ 52
  names : ∀ t, Distinct dialect (recordsOf numbers allData t)

/-- The `insert` of a table has a placeholder for each column it lists, `run` binds each once,
and `getIndexRecord` reads every row that is inserted back. -/
structure SchemaAligned (jdk : Jdk) (numbers : Numbers) (dialect : Dialect)
    (map : List (String × List Record)) (tableName : String) (list : List Record) : Prop where
  created : (createQuery tableName list).toList = (createTable tableName list).text
  placeholders : ∃ s : Insert, (getInsertQueryDetails numbers tableName list).query = s.text ∧
    s.table = tableName ∧ s.columns = list.map Record.colName ++ ["name", "nameLower"] ∧
      s.placeholders = s.columns.length
  bound : ∀ {table : ObjectsTable} (env : Surroundings table) (i : ℕ) (name : String)
    (keys : List ℕ),
    keys.Perm ((getInsertQueryDetails numbers tableName list).queryColoumMap.map Prod.fst) →
      ∃ r calls, row jdk numbers env list i name = some r ∧
        bindings jdk numbers env (getInsertQueryDetails numbers tableName list).queryColoumMap i
          name keys = some calls ∧ BoundOnce list r calls
  readsBack : ∀ (order : List (String × List Record)) (tables tables' : List (String × Schema)),
    order.Perm map → createIndexTable dialect tables order = some tables' →
      ∀ {table : ObjectsTable} (env : Surroundings table), Fresh env →
        ∃ cells, (IndexInsertionTask.run jdk numbers env list).mapM
            (store dialect ((createTable tableName list).schema dialect)) = some cells ∧
          ∀ rows, rows.Perm cells → ∀ r ∈ IndexInsertionTask.run jdk numbers env list,
            ∃ d, getIndexRecord dialect tables' rows r.nameLower tableName = some d ∧
              ReadsBack dialect list r d

/-! ## What the texts say -/

theorem toList_format (f : String) (args : List String) :
    (format f args).toList = formatS f.toList args := String.toList_ofList

theorem toList_format_three (a b c : String) :
    (format "%s%s%s" [a, b, c]).toList = a.toList ++ (b.toList ++ c.toList) := by
  rw [toList_format, ← List.append_nil c.toList]
  rfl

theorem join_concat_two (sep : String) (parts : List String) (a b : String) :
    join sep (parts ++ [a, b]) =
      (parts.flatMap fun part => part.toList ++ sep.toList) ++
        (a.toList ++ (sep.toList ++ b.toList)) := by
  induction parts with
  | nil => simp [join, List.intercalate]
  | cons part parts ih =>
      rw [List.flatMap_cons, List.append_assoc, ← ih]
      cases parts with
      | nil => simp [join, List.intercalate]
      | cons part' parts => simp [join, List.intercalate]

/-- The names that are read so far, each with its comma. -/
theorem foldl_colNames (numbers : Numbers) (list : List Record) (b : QueryBuilder) :
    (list.foldl (QueryBuilder.add numbers) b).colNames.toList =
      b.colNames.toList ++ (list.flatMap fun rec => rec.colName.toList ++ ", ".toList) := by
  induction list generalizing b with
  | nil => simp
  | cons rec list ih =>
      rw [List.foldl_cons, ih, List.flatMap_cons]
      rw [QueryBuilder.add, toList_format_three, List.append_assoc]

/-- The insert lists the columns of the definition and then the keys, with a placeholder for
each. -/
theorem query_eq (numbers : Numbers) (tableName : String) (list : List Record) :
    (getInsertQueryDetails numbers tableName list).query =
      (Insert.mk tableName (list.map Record.colName ++ ["name", "nameLower"])
        (list.length + 2)).text := by
  have hcolNames : (format "%s%s%s" [(list.foldl (QueryBuilder.add numbers) ⟨"", [], 1⟩).colNames,
      "name, nameLower", ""]).toList =
        join ", " (list.map Record.colName ++ ["name", "nameLower"]) := by
    rw [toList_format_three, foldl_colNames, join_concat_two, List.flatMap_map]
    rfl
  have hquery : ∀ a b c : String, formatS INSERT_CSV_INDEX_RECORD.toList [a, b, c] =
      "insert into ".toList ++ (a.toList ++ (" (".toList ++ (b.toList ++
        (") values (".toList ++ (c.toList ++ ")".toList))))) := fun _ _ _ => rfl
  have hvalues : (String.ofList (join "," (List.replicate (list.length + 2) "?"))).toList =
      join "," (List.replicate (list.length + 2) "?") := String.toList_ofList
  rw [getInsertQueryDetails]
  dsimp only
  rw [hquery, hcolNames, hvalues]
  rfl

theorem toList_format_four (a b c d : String) :
    (format "%s %s %s %s" [a, b, c, d]).toList =
      a.toList ++ ' ' :: (b.toList ++ ' ' :: (c.toList ++ ' ' :: d.toList)) := by
  rw [toList_format, ← List.append_nil d.toList]
  rfl

theorem toList_format_two (a b : String) :
    (format "%s %s" [a, b]).toList = a.toList ++ ' ' :: b.toList := by
  rw [toList_format, ← List.append_nil b.toList]
  rfl

/-- The columns that are written so far. -/
theorem foldl_createQuery (list : List Record) (query : String) :
    (list.foldl (fun query rec =>
      format "%s %s %s %s" [query, rec.colName, (colTypeVal rec).text, "NOT NULL, "])
        query).toList =
      query.toList ++ (list.flatMap fun rec => ' ' :: (rec.colName.toList ++
        ' ' :: ((colTypeVal rec).text.toList ++ ' ' :: "NOT NULL, ".toList))) := by
  induction list generalizing query with
  | nil => exact (List.append_nil _).symm
  | cons rec list ih =>
      rw [List.foldl_cons, ih, toList_format_four, List.flatMap_cons, List.append_assoc]

/-- `createIndexTable` lists the columns of the definition with their types. -/
theorem createQuery_eq (tableName : String) (list : List Record) :
    (createQuery tableName list).toList = (createTable tableName list).text := by
  have hstart : (format "create table %s (" [tableName]).toList =
      "create table ".toList ++ (tableName.toList ++ " (".toList) := by
    rw [toList_format]
    rfl
  have hcolumns : ((createTable tableName list).columns.flatMap fun col =>
      ' ' :: (col.1.toList ++ ' ' :: (col.2.text.toList ++ ' ' :: "NOT NULL, ".toList))) =
        list.flatMap fun rec => ' ' :: (rec.colName.toList ++
          ' ' :: ((colTypeVal rec).text.toList ++ ' ' :: "NOT NULL, ".toList)) :=
    List.flatMap_map _ _ list
  have htext : (createTable tableName list).text =
      "create table ".toList ++ (tableName.toList ++ (" (".toList ++
        (((createTable tableName list).columns.flatMap fun col =>
          ' ' :: (col.1.toList ++ ' ' :: (col.2.text.toList ++ ' ' :: "NOT NULL, ".toList))) ++
            ' ' :: keyColumns.toList))) := rfl
  rw [createQuery, toList_format_two, foldl_createQuery, hstart, htext, hcolumns]
  simp only [List.append_assoc]

/-! ## What is bound -/

/-- The keys so far are below the next number. -/
theorem foldl_queryMap (numbers : Numbers) (list : List Record) (b : QueryBuilder)
    (h : ∀ e ∈ b.queryMap, e.1 < b.colNo) :
    (list.foldl (QueryBuilder.add numbers) b).queryMap =
        b.queryMap ++ ((list.map (kind numbers)).zipIdx b.colNo).map Prod.swap ∧
      (list.foldl (QueryBuilder.add numbers) b).colNo = b.colNo + list.length ∧
      ∀ e ∈ (list.foldl (QueryBuilder.add numbers) b).queryMap, e.1 < b.colNo + list.length := by
  induction list generalizing b with
  | nil => exact ⟨(List.append_nil _).symm, rfl, h⟩
  | cons rec list ih =>
      have hfresh : b.colNo ∉ b.queryMap.map Prod.fst := by
        intro hmem
        obtain ⟨e, he, heq⟩ := List.mem_map.mp hmem
        have hlt := h e he
        omega
      have hqueryMap : (b.add numbers rec).queryMap =
          b.queryMap ++ [(b.colNo, kind numbers rec)] := put_of_not_mem _ hfresh
      have hcolNo : (b.add numbers rec).colNo = b.colNo + 1 := rfl
      have hbelow : ∀ e ∈ (b.add numbers rec).queryMap, e.1 < (b.add numbers rec).colNo := by
        intro e he
        rw [hqueryMap, List.mem_append, List.mem_singleton] at he
        rw [hcolNo]
        rcases he with hold | rfl
        · have hlt := h e hold
          omega
        · exact Nat.lt_succ_self _
      obtain ⟨hmap, hnext, hall⟩ := ih (b.add numbers rec) hbelow
      rw [List.foldl_cons, hmap, hnext, hcolNo, hqueryMap, List.length_cons]
      rw [hmap, hcolNo, hqueryMap] at hall
      refine ⟨?_, by omega, ?_⟩
      · rw [List.map_cons, List.zipIdx_cons, List.map_cons, List.append_assoc,
          List.singleton_append]
        rfl
      · intro e he
        have hlt := hall e he
        omega

/-- The map of `getInsertQueryDetails` numbers the kinds from 1. -/
theorem queryColoumMap_eq (numbers : Numbers) (tableName : String) (list : List Record) :
    (getInsertQueryDetails numbers tableName list).queryColoumMap =
      ((queryColoumMap numbers list).zipIdx 1).map Prod.swap := by
  obtain ⟨hmap, hcolNo, hbelow⟩ :=
    foldl_queryMap numbers list ⟨"", [], 1⟩ (fun _ he => absurd he List.not_mem_nil)
  have hfresh : ∀ (m : List (ℕ × String)) (k : ℕ), (∀ e ∈ m, e.1 < k) → k ∉ m.map Prod.fst := by
    intro m k hlt hmem
    obtain ⟨e, he, heq⟩ := List.mem_map.mp hmem
    have := hlt e he
    omega
  rw [getInsertQueryDetails]
  dsimp only
  rw [hcolNo, put_of_not_mem _ (hfresh _ _ hbelow), put_of_not_mem]
  · rw [hmap, queryColoumMap, List.zipIdx_append, List.map_append, List.length_map]
    rw [List.append_assoc, List.nil_append]
    rfl
  · refine hfresh _ _ ?_
    intro e he
    rcases List.mem_append.mp he with hold | hnew
    · exact Nat.lt_succ_of_lt (hbelow e hold)
    · obtain rfl := List.mem_singleton.mp hnew
      exact Nat.lt_succ_self _

/-- The placeholders are numbered from 1 to the last key. -/
theorem keys_eq (numbers : Numbers) (tableName : String) (list : List Record) :
    (getInsertQueryDetails numbers tableName list).queryColoumMap.map Prod.fst =
      List.range' 1 (list.length + 2) := by
  have hlength : (queryColoumMap numbers list).length = list.length + 2 := by
    rw [queryColoumMap, List.length_append, List.length_map]
    rfl
  rw [queryColoumMap_eq, List.map_map, ← hlength]
  exact List.zipIdx_map_snd 1 _

theorem getElem?_of_mapM {α β : Type} {f : α → Option β} {l : List α} {l' : List β}
    (h : l.mapM f = some l') {k : ℕ} {a : α} (ha : l[k]? = some a) : f a = l'[k]? := by
  induction l generalizing l' k with
  | nil => cases ha
  | cons b l ih =>
      rw [List.mapM_cons] at h
      obtain ⟨v, hv, h⟩ := Option.bind_eq_some_iff.mp h
      obtain ⟨rest, hrest, h⟩ := Option.bind_eq_some_iff.mp h
      cases h
      cases k with
      | zero =>
          cases ha
          exact hv
      | succ k => exact ih hrest ha

/-- A loop whose turns all bind makes one call a turn. -/
theorem mapM_calls {f : ℕ → Option (ℕ × ColumnValue)} {vals : List ColumnValue} {keys : List ℕ}
    (h : ∀ j ∈ keys, ∃ v, f j = some (j, v) ∧ vals[j - 1]? = some v) :
    ∃ calls, keys.mapM f = some calls ∧ calls.map Prod.fst = keys ∧
      ∀ c ∈ calls, vals[c.1 - 1]? = some c.2 := by
  induction keys with
  | nil => exact ⟨[], rfl, rfl, fun _ hc => absurd hc List.not_mem_nil⟩
  | cons j keys ih =>
      obtain ⟨v, hv, hval⟩ := h j (List.mem_cons_self ..)
      obtain ⟨calls, hcalls, hkeys, hvals⟩ := ih fun j' hj' => h j' (List.mem_cons_of_mem _ hj')
      refine ⟨(j, v) :: calls, ?_, ?_, ?_⟩
      · rw [List.mapM_cons, hv, hcalls]
        rfl
      · rw [List.map_cons, hkeys]
      · intro c hc
        rcases List.mem_cons.mp hc with rfl | hc
        · exact hval
        · exact hvals c hc

variable {table : ObjectsTable}

/-- Over the keys in any order, `run` gives each placeholder the value of its column. -/
theorem bindings_eq {jdk : Jdk} {numbers : Numbers} {env : Surroundings table}
    (tableName : String) {list : List Record} {i : ℕ} {name : String} {vals : List ColumnValue}
    {keys : List ℕ}
    (hvals : (queryColoumMap numbers list).zipIdx.mapM (fun p =>
      bound jdk numbers p.1 name (env.nextDouble i p.2) (env.millis i)) = some vals)
    (hkeys : ∀ j ∈ keys, j ∈ List.range' 1 (list.length + 2)) :
    ∃ calls,
      bindings jdk numbers env (getInsertQueryDetails numbers tableName list).queryColoumMap i name
        keys = some calls ∧ calls.map Prod.fst = keys ∧ ∀ c ∈ calls, vals[c.1 - 1]? = some c.2 := by
  have hlength : (queryColoumMap numbers list).length = list.length + 2 := by
    rw [queryColoumMap, List.length_append, List.length_map]
    rfl
  have hunique : Foundation.KeyedRows.Unique Prod.fst
      (((queryColoumMap numbers list).zipIdx 1).map Prod.swap) := by
    have hfst := keys_eq numbers tableName list
    rw [queryColoumMap_eq] at hfst
    rw [Foundation.KeyedRows.Unique, hfst]
    exact List.nodup_range'
  rw [bindings, queryColoumMap_eq]
  refine mapM_calls ?_
  intro j hj
  obtain ⟨hpos, hlt⟩ := List.mem_range'_1.mp (hkeys j hj)
  have hbound : j - 1 < (queryColoumMap numbers list).length := by omega
  obtain ⟨kind, hkind⟩ : ∃ kind, (queryColoumMap numbers list)[j - 1]? = some kind :=
    ⟨_, List.getElem?_eq_getElem hbound⟩
  have hentry : (j, kind) ∈ ((queryColoumMap numbers list).zipIdx 1).map Prod.swap := by
    refine List.mem_map.mpr ⟨(kind, j), ?_, rfl⟩
    rw [List.mk_mem_zipIdx_iff_le_and_getElem?_sub]
    exact ⟨hpos, hkind⟩
  have hzip : ((queryColoumMap numbers list).zipIdx)[j - 1]? = some (kind, j - 1) := by
    rw [List.getElem?_zipIdx, hkind]
    simp
  have hvalue : bound jdk numbers kind name (env.nextDouble i (j - 1)) (env.millis i) =
      vals[j - 1]? := getElem?_of_mapM hvals hzip
  have hcolumn : column (((queryColoumMap numbers list).zipIdx 1).map Prod.swap) j = some kind :=
    column_of_mem hunique hentry
  have hsome : j - 1 < vals.length := by
    rw [length_of_mapM hvals, List.length_zipIdx]
    exact hbound
  refine ⟨vals[j - 1], ?_, List.getElem?_eq_getElem hsome⟩
  rw [List.getElem?_eq_getElem hsome] at hvalue
  rw [hcolumn, Option.bind_eq_bind, Option.bind_some, hvalue]
  rfl

/-- The values of all placeholders, the keys being given the name. -/
theorem allValues_eq {jdk : Jdk} {numbers : Numbers} {env : Surroundings table}
    {list : List Record} {i : ℕ} {name : String} {values : List ColumnValue}
    (h : columnValues jdk numbers env list i name = some values) :
    (queryColoumMap numbers list).zipIdx.mapM (fun p =>
        bound jdk numbers p.1 name (env.nextDouble i p.2) (env.millis i)) =
      some (values ++ [.varchar name, .varchar name]) := by
  have hname := fun d m => bound_of_not_contains jdk numbers name d m
    fun t ht => (not_contains t ht).1
  have hnameLower := fun d m => bound_of_not_contains jdk numbers name d m
    fun t ht => (not_contains t ht).2
  rw [queryColoumMap, List.zipIdx_append, List.mapM_append, ← columnValues, h]
  simp [hname, hnameLower]

/-- The value a column is given is of its type. -/
theorem typeOf_bound {jdk : Jdk} {numbers : Numbers} {rec : Record} {name : String}
    {nextDouble millis : BitVec 64} {v : ColumnValue}
    (htype : rec.colType ∈ ["String", "Date", "Time", "Double"])
    (h : bound jdk numbers (kind numbers rec) name nextDouble millis = some v) :
    typeOf v = colTypeVal rec := by
  by_cases hString : contains rec.colType "String" = true
  · have hkind : contains (kind numbers rec) "String" = true := by
      rw [kind, if_pos hString, contains, String.toList_append]
      exact decide_eq_true (List.prefix_append _ _).isInfix
    rw [bound, if_pos hkind] at h
    obtain ⟨d, -, h⟩ := Option.bind_eq_some_iff.mp h
    dsimp only at h
    split at h
    · cases h
      rw [colTypeVal, if_pos hString]
      rfl
    · cases h
  · have hfloat : ∀ t ∈ ["Date", "Time", "Double"], contains t "String" = false ∧
        (contains t "Double" || (contains t "Date" || contains t "Time")) = true := by
      decide +kernel
    have hmem : rec.colType ∈ ["Date", "Time", "Double"] := by
      rcases List.mem_cons.mp htype with heq | hmem
      · exact absurd (by rw [heq]; decide +kernel) hString
      · exact hmem
    obtain ⟨-, hone⟩ := hfloat _ hmem
    rw [kind, if_neg hString] at h
    rw [colTypeVal, if_neg hString]
    rw [bound, if_neg hString] at h
    split at h
    · cases h
      rfl
    · rename_i hDouble
      rw [Bool.not_eq_true] at hDouble
      rw [hDouble, Bool.false_or] at hone
      rw [if_pos hone] at h
      cases h
      rfl

/-- The values of a row have the types of their columns. -/
theorem typeOf_columnValues {jdk : Jdk} {numbers : Numbers} {env : Surroundings table}
    {list : List Record} {i : ℕ} {name : String} {values : List ColumnValue}
    (htypes : ∀ rec ∈ list, rec.colType ∈ ["String", "Date", "Time", "Double"])
    (h : columnValues jdk numbers env list i name = some values) :
    values.map typeOf = list.map colTypeVal := by
  have hlength : values.length = list.length := by
    rw [length_of_mapM h, List.length_zipIdx, List.length_map]
  rw [columnValues] at h
  refine List.ext_getElem (by rw [List.length_map, List.length_map, hlength]) ?_
  intro k hk hk'
  rw [List.length_map] at hk hk'
  have hzip : ((list.map (kind numbers)).zipIdx)[k]? = some (kind numbers list[k], k) := by
    rw [List.getElem?_zipIdx, List.getElem?_map, List.getElem?_eq_getElem hk']
    simp
  have hvalue := getElem?_of_mapM h hzip
  rw [List.getElem?_eq_getElem hk] at hvalue
  rw [List.getElem_map, List.getElem_map]
  exact typeOf_bound (htypes _ (List.getElem_mem hk')) hvalue

/-! ## The tables of the definition -/

/-- The list of a table, empty if there is none. -/
def listOf (map : List (String × List Record)) (tableName : String) : List Record :=
  (column map tableName).getD []

theorem listOf_cons (e : String × List Record) (map : List (String × List Record)) (t : String) :
    listOf (e :: map) t = if e.1 = t then e.2 else listOf map t := by
  rw [listOf, column_cons]
  split <;> rfl

/-- A record goes to the list of its table and to no other. -/
theorem listOf_put (map : List (String × List Record)) (tableName : String) (rec : Record)
    (t : String) :
    listOf (IndexInsertion.put map tableName rec) t =
      listOf map t ++ if tableName = t then [rec] else [] := by
  induction map with
  | nil =>
      rw [IndexInsertion.put, listOf_cons]
      rfl
  | cons e map ih =>
      obtain ⟨name, list⟩ := e
      rw [IndexInsertion.put]
      by_cases hname : name = tableName
      · rw [if_pos hname, listOf_cons, listOf_cons]
        by_cases ht : name = t
        · rw [if_pos ht, if_pos ht, if_pos (hname.symm.trans ht)]
        · rw [if_neg ht, if_neg ht, if_neg fun heq => ht (hname.trans heq), List.append_nil]
      · rw [if_neg hname, listOf_cons, listOf_cons, ih]
        by_cases ht : name = t
        · rw [if_pos ht, if_pos ht, if_neg fun heq => hname (ht.trans heq.symm), List.append_nil]
        · rw [if_neg ht, if_neg ht]

theorem mem_keys_put {map : List (String × List Record)} {tableName t : String} {rec : Record}
    (h : t ∈ (IndexInsertion.put map tableName rec).map Prod.fst) :
    t = tableName ∨ t ∈ map.map Prod.fst := by
  induction map with
  | nil => exact .inl (List.mem_singleton.mp h)
  | cons e map ih =>
      obtain ⟨name, list⟩ := e
      rw [IndexInsertion.put] at h
      split at h
      · exact .inr h
      · rcases List.mem_cons.mp h with heq | hmem
        · exact .inr (List.mem_cons.mpr (.inl heq))
        · rcases ih hmem with heq | hold
          · exact .inl heq
          · exact .inr (List.mem_cons_of_mem _ hold)

theorem unique_put {map : List (String × List Record)} (tableName : String) (rec : Record)
    (h : Foundation.KeyedRows.Unique Prod.fst map) :
    Foundation.KeyedRows.Unique Prod.fst (IndexInsertion.put map tableName rec) := by
  unfold Foundation.KeyedRows.Unique at h ⊢
  induction map with
  | nil => exact List.nodup_singleton _
  | cons e map ih =>
      obtain ⟨name, list⟩ := e
      rw [IndexInsertion.put]
      split
      case isTrue => exact h
      case isFalse hname =>
        rw [List.map_cons, List.nodup_cons] at h ⊢
        refine ⟨?_, ih h.2⟩
        intro hmem
        rcases mem_keys_put hmem with heq | hold
        · exact hname heq
        · exact h.1 hold

/-- However the rows are interleaved, a table has its own records in their order. -/
theorem foldlM_put (numbers : Numbers) (allData : List (List String))
    (map map' : List (String × List Record))
    (hunique : Foundation.KeyedRows.Unique Prod.fst map)
    (h : allData.foldlM (fun map line => do
      let (tableName, rec) ← Record.ofLine numbers line
      return IndexInsertion.put map tableName rec) map = some map') :
    Foundation.KeyedRows.Unique Prod.fst map' ∧
      ∀ t, listOf map' t = listOf map t ++ recordsOf numbers allData t := by
  induction allData generalizing map with
  | nil =>
      cases h
      exact ⟨hunique, fun t => (List.append_nil _).symm⟩
  | cons line allData ih =>
      rw [List.foldlM_cons] at h
      obtain ⟨map₁, hline, h⟩ := Option.bind_eq_some_iff.mp h
      obtain ⟨⟨tableName, rec⟩, hrec, hput⟩ := Option.bind_eq_some_iff.mp hline
      cases hput
      obtain ⟨hunique', hlists⟩ := ih _ (unique_put tableName rec hunique) h
      refine ⟨hunique', ?_⟩
      intro t
      rw [hlists, listOf_put, recordsOf, recordsOf, List.filterMap_cons, hrec]
      by_cases ht : tableName = t
      · simp [ht]
      · simp [ht]

theorem mem_mapifyCSV {numbers : Numbers} {allData : List (List String)}
    {map : List (String × List Record)} (h : mapifyCSV numbers allData = some map)
    {e : String × List Record} (he : e ∈ map) : e.2 = recordsOf numbers allData e.1 := by
  obtain ⟨hunique, hlists⟩ := foldlM_put numbers allData [] map List.nodup_nil h
  have hcolumn : listOf map e.1 = e.2 := by
    rw [listOf, column_of_mem hunique he]
    rfl
  rw [← hcolumn, hlists]
  rfl

/-- A table that is created stays as it was created. -/
theorem column_createIndexTable {dialect : Dialect} {tables tables' : List (String × Schema)}
    {order : List (String × List Record)}
    (h : createIndexTable dialect tables order = some tables') :
    (∀ k ∈ tables.map Prod.fst, column tables' k = column tables k) ∧
      ∀ e ∈ order,
        column tables' (dialect.fold e.1) = some ((createTable e.1 e.2).schema dialect) := by
  induction order generalizing tables with
  | nil =>
      cases h
      exact ⟨fun _ _ => rfl, fun _ he => absurd he List.not_mem_nil⟩
  | cons e order ih =>
      rw [createIndexTable, List.foldlM_cons] at h
      obtain ⟨tables₁, hone, hrest⟩ := Option.bind_eq_some_iff.mp h
      dsimp only at hone
      split at hone
      case isTrue => cases hone
      case isFalse hfresh =>
        split at hone
        case isFalse => cases hone
        case isTrue =>
          cases hone
          obtain ⟨hkept, hcreated⟩ := ih hrest
          have hmem : dialect.fold e.1 ∈
              (tables ++ [(dialect.fold e.1, (createTable e.1 e.2).schema dialect)]).map
                Prod.fst := by
            rw [List.map_append]
            exact List.mem_append_right _ (List.mem_singleton_self _)
          constructor
          · intro k hk
            rw [hkept k (by rw [List.map_append]; exact List.mem_append_left _ hk),
              column_append _ hk]
          · intro e' he'
            rcases List.mem_cons.mp he' with rfl | he'
            · rw [hkept _ hmem, column_concat _ hfresh]
            · exact hcreated e' he'

/-! ## One row, stored and read -/

/-- The row has a value for each column of the definition, of its type. -/
structure OfDefinition (list : List Record) (r : IndexRow) : Prop where
  names : r.columns.map Prod.fst = list.map Record.colName
  types : (r.columns.map Prod.snd).map typeOf = list.map colTypeVal
  lower : r.nameLower = r.name

/-- The values by the names of the database. -/
def folded (dialect : Dialect) (r : IndexRow) : List (String × ColumnValue) :=
  (assigned r).map fun a => (dialect.fold a.1, a.2)

section

variable {dialect : Dialect} {list : List Record} {r : IndexRow} {tableName : String}

theorem folded_fst (h : OfDefinition list r) :
    (folded dialect r).map Prod.fst =
      (list.map Record.colName ++ ["name", "nameLower"]).map dialect.fold := by
  rw [folded, List.map_map, ← h.names, List.map_append, List.map_map, assigned, List.map_append]
  rfl

theorem schema_fst :
    ((createTable tableName list).schema dialect).map Prod.fst =
      (list.map Record.colName ++ ["name", "nameLower"]).map dialect.fold := by
  simp [CreateTable.schema, createTable]

theorem folded_unique (hdistinct : Distinct dialect list) (h : OfDefinition list r) :
    Foundation.KeyedRows.Unique Prod.fst (folded dialect r) := by
  rw [Foundation.KeyedRows.Unique, folded_fst h]
  exact hdistinct

theorem store_eq (hdistinct : Distinct dialect list) (h : OfDefinition list r) :
    store dialect ((createTable tableName list).schema dialect) r =
      some ((assigned r).map Prod.snd) := by
  have hsnd : (folded dialect r).map Prod.snd = (assigned r).map Prod.snd := by
    rw [folded, List.map_map]
    rfl
  rw [store, schema_fst, ← folded_fst h, ← hsnd]
  exact mapM_column (folded_unique hdistinct h)

/-- The text of a key column is read back. -/
theorem getString_eq (hdistinct : Distinct dialect list) (h : OfDefinition list r)
    {k s : String} (hk : (k, .varchar s) ∈ assigned r) :
    getString ((createTable tableName list).schema dialect) ((assigned r).map Prod.snd)
      (dialect.fold k) = some s := by
  have hzip : (((createTable tableName list).schema dialect).map Prod.fst).zip
      ((assigned r).map Prod.snd) = folded dialect r := by
    rw [schema_fst, ← folded_fst h, folded, List.map_map]
    exact List.zip_map' ..
  have hcolumn : column (folded dialect r) (dialect.fold k) = some (.varchar s) :=
    column_of_mem (folded_unique hdistinct h) (List.mem_map.mpr ⟨_, hk, rfl⟩)
  rw [getString, hzip, hcolumn]

/-- The row under the names of the database. -/
def renamed (dialect : Dialect) (r : IndexRow) : IndexRow :=
  { r with columns := r.columns.map fun c => (dialect.fold c.1, c.2) }

/-- A column goes to the map of its type. -/
theorem foldl_readColumn (columns : List (String × ColumnValue)) (d : IndexRecDTO) :
    (columns.map fun c => ((dialect.fold c.1, typeOf c.2), c.2)).foldl (readColumn dialect) d =
      { objKey := d.objKey
        doubleMap := (IndexRow.toMsgOnSuccess (renamed dialect ⟨columns, "", ""⟩)).doubleVal.foldl
          (fun m e => put m e.1 e.2) d.doubleMap
        stringMap := (IndexRow.toMsgOnSuccess (renamed dialect ⟨columns, "", ""⟩)).stringVal.foldl
          (fun m e => put m e.1 e.2) d.stringMap } := by
  induction columns generalizing d with
  | nil => rfl
  | cons c columns ih =>
      obtain ⟨name, v⟩ := c
      rw [List.map_cons, List.foldl_cons, ih]
      cases v with
      | varchar s =>
          have hread : readColumn dialect d ((dialect.fold name, .varchar), .varchar s) =
              { d with stringMap := put d.stringMap (dialect.fold name) s } := by
            rw [readColumn]
            exact if_pos dialect.varchar
          rw [typeOf, hread]
          rfl
      | float bits =>
          have hread : readColumn dialect d ((dialect.fold name, .float), .float bits) =
              { d with doubleMap := put d.doubleMap (dialect.fold name) bits } := by
            rw [readColumn]
            exact if_neg (ne_true_of_eq_false dialect.float)
          rw [typeOf, hread]
          rfl

/-- The columns of the table are those of the row. -/
theorem columns_eq (h : OfDefinition list r) :
    (createTable tableName list).columns = r.columns.map fun c => (c.1, typeOf c.2) := by
  have hleft : (createTable tableName list).columns =
      (list.map Record.colName).zip (list.map colTypeVal) := (List.zip_map' ..).symm
  rw [hleft, ← h.names, ← h.types, List.map_map]
  exact List.zip_map' ..

/-- The columns but the last two are those of the definition. -/
theorem take_eq (h : OfDefinition list r) :
    (((createTable tableName list).schema dialect).zip ((assigned r).map Prod.snd)).take
        (((createTable tableName list).schema dialect).length - 2) =
      r.columns.map fun c => ((dialect.fold c.1, typeOf c.2), c.2) := by
  have hlength : (r.columns.map fun c => (dialect.fold c.1, typeOf c.2)).length =
      (r.columns.map Prod.snd).length := by
    rw [List.length_map, List.length_map]
  have hzip : (r.columns.map fun c => (dialect.fold c.1, typeOf c.2)).zip
      (r.columns.map Prod.snd) =
        r.columns.map fun c => ((dialect.fold c.1, typeOf c.2), c.2) := List.zip_map' ..
  have hschema : (createTable tableName list).schema dialect =
      (r.columns.map fun c => (dialect.fold c.1, typeOf c.2)) ++
        [(dialect.fold "name", .varchar), (dialect.fold "nameLower", .varchar)] := by
    rw [CreateTable.schema, columns_eq h, List.map_map]
    rfl
  rw [hschema, assigned, List.map_append, List.zip_append hlength, List.length_append,
    List.length_cons, List.length_singleton, Nat.add_sub_cancel_right]
  refine (List.take_left' ?_).trans hzip
  rw [List.length_zip, List.length_map, List.length_map]
  simp

theorem filterMap_fst_sublist {α β : Type} (columns : List (String × α))
    (f : String × α → Option (String × β)) (hf : ∀ c p, f c = some p → p.1 = c.1) :
    ((columns.filterMap f).map Prod.fst).Sublist (columns.map Prod.fst) := by
  induction columns with
  | nil => exact List.Sublist.slnil
  | cons c columns ih =>
      rw [List.filterMap_cons]
      cases hc : f c with
      | none => exact ih.cons _
      | some p =>
          dsimp only
          rw [List.map_cons, List.map_cons, hf c p hc]
          exact ih.cons_cons _

/-- The reader makes of the stored row what the other reads make of it. -/
theorem readRow_eq (hdistinct : Distinct dialect list) (h : OfDefinition list r) :
    readRow dialect ((createTable tableName list).schema dialect) ((assigned r).map Prod.snd) =
      IndexRow.toIndexRecDTO (renamed dialect r) := by
  have hname : getString ((createTable tableName list).schema dialect)
      ((assigned r).map Prod.snd) (dialect.fold "name") = some r.name :=
    getString_eq hdistinct h (by simp [assigned])
  have hkeys : ((renamed dialect r).columns.map Prod.fst).Nodup := by
    have hunique : ((folded dialect r).map Prod.fst).Nodup := folded_unique hdistinct h
    rw [folded, assigned, List.map_append, List.map_append] at hunique
    exact (List.nodup_append.mp hunique).1
  have hstrings : Foundation.KeyedRows.Unique Prod.fst
      (renamed dialect r).toMsgOnSuccess.stringVal := by
    refine List.Nodup.sublist (filterMap_fst_sublist _ _ ?_) hkeys
    rintro ⟨name, v⟩ p hp
    cases v <;> cases hp
    rfl
  have hdoubles : Foundation.KeyedRows.Unique Prod.fst
      (renamed dialect r).toMsgOnSuccess.doubleVal := by
    refine List.Nodup.sublist (filterMap_fst_sublist _ _ ?_) hkeys
    rintro ⟨name, v⟩ p hp
    cases v <;> cases hp
    rfl
  rw [readRow, take_eq h, hname, foldl_readColumn]
  have hstringMap : (renamed dialect ⟨r.columns, "", ""⟩).toMsgOnSuccess.stringVal.foldl
      (fun m (e : String × String) => Foundation.Maps.put m e.1 e.2) [] =
        (renamed dialect r).toMsgOnSuccess.stringVal := foldl_put hstrings
  have hdoubleMap : (renamed dialect ⟨r.columns, "", ""⟩).toMsgOnSuccess.doubleVal.foldl
      (fun m (e : String × BitVec 64) => Foundation.Maps.put m e.1 e.2) [] =
        (renamed dialect r).toMsgOnSuccess.doubleVal := foldl_put hdoubles
  rw [hstringMap, hdoubleMap]
  rfl

/-! ## Every column once -/

theorem colTypeVal_eq {rec : Record} (h : rec.colType ∈ ["String", "Date", "Time", "Double"]) :
    colTypeVal rec = if rec.colType = "String" then .varchar else .float := by
  have hcontains : ∀ t ∈ ["String", "Date", "Time", "Double"],
      contains t "String" = decide (t = "String") := by decide +kernel
  rw [colTypeVal, hcontains _ h]
  by_cases hString : rec.colType = "String"
  · rw [if_pos hString, if_pos (decide_eq_true hString)]
  · rw [if_neg hString, if_neg (by rw [decide_eq_true_eq]; exact hString)]

variable (dialect) in
/-- The names of the two maps, column by column. -/
theorem maps_fst (columns : List (String × ColumnValue)) (list : List Record)
    (htypes : ∀ rec ∈ list, rec.colType ∈ ["String", "Date", "Time", "Double"])
    (hnames : columns.map Prod.fst = list.map Record.colName)
    (hvalues : (columns.map Prod.snd).map typeOf = list.map colTypeVal) :
    ((IndexRow.toMsgOnSuccess (renamed dialect ⟨columns, "", ""⟩)).stringVal.map Prod.fst =
      (list.filter fun rec => decide (rec.colType = "String")).map
        fun rec => dialect.fold rec.colName) ∧
    ((IndexRow.toMsgOnSuccess (renamed dialect ⟨columns, "", ""⟩)).doubleVal.map Prod.fst =
      (list.filter fun rec => decide (rec.colType ≠ "String")).map
        fun rec => dialect.fold rec.colName) := by
  induction list generalizing columns with
  | nil =>
      obtain rfl := List.map_eq_nil_iff.mp hnames
      exact ⟨rfl, rfl⟩
  | cons rec list ih =>
      cases columns with
      | nil => cases hnames
      | cons c columns =>
          obtain ⟨name, v⟩ := c
          rw [List.map_cons, List.map_cons, List.cons.injEq] at hnames
          rw [List.map_cons, List.map_cons, List.map_cons, List.cons.injEq] at hvalues
          obtain ⟨hstrings, hdoubles⟩ := ih columns
            (fun rec' hrec' => htypes rec' (List.mem_cons_of_mem _ hrec')) hnames.2 hvalues.2
          have htype := hvalues.1
          rw [colTypeVal_eq (htypes rec (List.mem_cons_self ..))] at htype
          have hname : name = rec.colName := hnames.1
          cases v with
          | varchar s =>
              have hString : rec.colType = "String" := by
                by_contra hne
                rw [if_neg hne] at htype
                cases htype
              constructor
              · rw [List.filter_cons_of_pos (by simp [hString]), List.map_cons, ← hstrings,
                  ← hname]
                rfl
              · rw [List.filter_cons_of_neg (by simp [hString]), ← hdoubles]
                rfl
          | float bits =>
              have hString : rec.colType ≠ "String" := by
                intro heq
                rw [if_pos heq] at htype
                cases htype
              constructor
              · rw [List.filter_cons_of_neg (by simp [hString]), ← hstrings]
                rfl
              · rw [List.filter_cons_of_pos (by simp [hString]), List.map_cons, ← hdoubles,
                  ← hname]
                rfl

/-- What is read of a row is the row. -/
theorem readsBack_of_definition
    (htypes : ∀ rec ∈ list, rec.colType ∈ ["String", "Date", "Time", "Double"])
    (hdistinct : Distinct dialect list) (h : OfDefinition list r) :
    ReadsBack dialect list r (IndexRow.toIndexRecDTO (renamed dialect r)) := by
  obtain ⟨hstrings, hdoubles⟩ := maps_fst dialect r.columns list htypes h.names h.types
  have hkeys : ((renamed dialect r).toMsgOnSuccess.stringVal.map Prod.fst ++
      (renamed dialect r).toMsgOnSuccess.doubleVal.map Prod.fst).Perm
        (list.map fun rec => dialect.fold rec.colName) := by
    have hsplit := List.filter_append_perm (fun rec => decide (rec.colType = "String")) list
    have hdoubles' : (renamed dialect r).toMsgOnSuccess.doubleVal.map Prod.fst =
        (list.filter fun rec => !decide (rec.colType = "String")).map
          fun rec => dialect.fold rec.colName := by
      simp only [← decide_not]
      exact hdoubles
    have hstrings' : (renamed dialect r).toMsgOnSuccess.stringVal.map Prod.fst =
        (list.filter fun rec => decide (rec.colType = "String")).map
          fun rec => dialect.fold rec.colName := hstrings
    rw [hstrings', hdoubles', ← List.map_append]
    exact hsplit.map _
  have hnodup : (list.map (fun rec => dialect.fold rec.colName) ++
      ["name", "nameLower"].map dialect.fold).Nodup := by
    rw [Distinct, List.map_append, List.map_map] at hdistinct
    exact hdistinct
  refine ⟨hstrings, hdoubles, ?_, ?_, ?_, ?_⟩
  · exact hkeys.nodup_iff.mpr (List.nodup_append.mp hnodup).1
  · intro c s hc
    exact List.mem_filterMap.mpr
      ⟨(dialect.fold c, .varchar s), List.mem_map.mpr ⟨_, hc, rfl⟩, rfl⟩
  · intro c bits hc
    exact List.mem_filterMap.mpr
      ⟨(dialect.fold c, .float bits), List.mem_map.mpr ⟨_, hc, rfl⟩, rfl⟩
  · intro k hk hmem
    exact List.disjoint_of_nodup_append hnodup (hkeys.mem_iff.mp hmem)
      (List.mem_map.mpr ⟨k, hk, rfl⟩)

/-! ## The rows of the table -/

/-- What is inserted has names of its own. -/
theorem finish_unique {env : Surroundings table} (henv : Fresh env) (t : Inserter)
    (h : Foundation.KeyedRows.Unique IndexRow.name t.inserted) :
    Foundation.KeyedRows.Unique IndexRow.name (t.finish env) := by
  rw [Inserter.finish, Inserter.executeBatch]
  by_cases hexecutes : env.executes (env.existing ++ t.inserted) t.batch = true
  · rw [if_pos hexecutes]
    have hunique := henv.primaryKey _ _ hexecutes
    rw [henv.existing] at hunique
    exact hunique
  · rw [if_neg hexecutes]
    exact h

theorem add_unique {env : Surroundings table} (henv : Fresh env) {t t' : Inserter}
    {r : IndexRow} (hadd : t.add env r = some t')
    (h : Foundation.KeyedRows.Unique IndexRow.name t.inserted) :
    Foundation.KeyedRows.Unique IndexRow.name t'.inserted := by
  rw [Inserter.add] at hadd
  split at hadd
  · rw [Inserter.executeBatch] at hadd
    split at hadd
    case isTrue hexecutes =>
      cases hadd
      have hunique := henv.primaryKey _ _ hexecutes
      rw [henv.existing] at hunique
      exact hunique
    case isFalse => cases hadd
  · cases hadd
    exact h

theorem loop_unique {jdk : Jdk} {numbers : Numbers} {env : Surroundings table} (henv : Fresh env)
    (n : ℕ) (rs : List String) (k prev i : ℕ) (t : Inserter)
    (h : Foundation.KeyedRows.Unique IndexRow.name t.inserted) :
    Foundation.KeyedRows.Unique IndexRow.name
      (IndexInsertion.loop jdk numbers env list n rs k prev i t) := by
  induction n generalizing rs k prev i t with
  | zero => exact finish_unique henv t h
  | succ n ih =>
      cases rs with
      | nil => exact finish_unique henv t h
      | cons name rs =>
          rw [IndexInsertion.loop]
          split
          case h_1 => exact h
          case h_2 r hrow =>
            split
            case h_1 => exact h
            case h_2 t' hadd =>
              have h' := add_unique henv hadd h
              split
              · exact ih _ _ _ _ _ h'
              · exact ih _ _ _ _ _ h'

/-- A row of the loader is one of the definition. -/
theorem ofDefinition_of_row {jdk : Jdk} {numbers : Numbers} {env : Surroundings table} {i : ℕ}
    {name : String} (htypes : ∀ rec ∈ list, rec.colType ∈ ["String", "Date", "Time", "Double"])
    (h : row jdk numbers env list i name = some r) : OfDefinition list r := by
  rw [row_eq] at h
  obtain ⟨values, hvalues, rfl⟩ := Option.map_eq_some_iff.mp h
  have hlength : (list.map Record.colName).length = values.length := by
    rw [length_of_mapM hvalues, List.length_zipIdx, List.length_map, List.length_map]
  refine ⟨List.map_fst_zip hlength.le, ?_, rfl⟩
  rw [List.map_snd_zip hlength.ge]
  exact typeOf_columnValues htypes hvalues

theorem mapM_store {X : List IndexRow} (hdistinct : Distinct dialect list)
    (hX : ∀ r ∈ X, OfDefinition list r) :
    X.mapM (store dialect ((createTable tableName list).schema dialect)) =
      some (X.map fun r => (assigned r).map Prod.snd) := by
  induction X with
  | nil => rfl
  | cons r X ih =>
      rw [List.mapM_cons, store_eq hdistinct (hX r (List.mem_cons_self ..)),
        ih fun r' hr' => hX r' (List.mem_cons_of_mem _ hr')]
      rfl

/-- The stored key finds its own row, whatever the order of the table. -/
theorem getIndexRecord_stored {X : List IndexRow} {tables : List (String × Schema)}
    {rows : List (List ColumnValue)} (hdistinct : Distinct dialect list)
    (hX : ∀ r ∈ X, OfDefinition list r)
    (hunique : Foundation.KeyedRows.Unique IndexRow.name X)
    (htables : column tables (dialect.fold tableName) =
      some ((createTable tableName list).schema dialect))
    (hrows : rows.Perm (X.map fun r => (assigned r).map Prod.snd)) (hr : r ∈ X) :
    getIndexRecord dialect tables rows r.nameLower tableName =
      some (IndexRow.toIndexRecDTO (renamed dialect r)) := by
  have hkey : ∀ r' ∈ X, decide (getString ((createTable tableName list).schema dialect)
      ((assigned r').map Prod.snd) (dialect.fold "nameLower") = some r.nameLower) =
        decide (r'.name = r.name) := by
    intro r' hr'
    have hlower : getString ((createTable tableName list).schema dialect)
        ((assigned r').map Prod.snd) (dialect.fold "nameLower") = some r'.nameLower :=
      getString_eq hdistinct (hX r' hr') (by simp [assigned])
    rw [hlower, (hX r' hr').lower, (hX r hr).lower]
    simp
  have hone : X.filter (fun r' => decide (r'.name = r.name)) = [r] := by
    rw [filter_key_eq hunique, (lookup_eq_some hunique).mpr ⟨hr, rfl⟩]
    rfl
  have hfound : rows.filter (fun cells => decide (getString
      ((createTable tableName list).schema dialect) cells (dialect.fold "nameLower") =
        some r.nameLower)) = [(assigned r).map Prod.snd] := by
    refine List.perm_singleton.mp ((hrows.filter _).trans ?_)
    rw [List.filter_map, List.filter_congr (q := fun r' => decide (r'.name = r.name)) hkey, hone]
    exact List.Perm.refl _
  rw [getIndexRecord, htables]
  dsimp only
  rw [hfound, List.foldl_cons, List.foldl_nil, readRow_eq hdistinct (hX r hr)]

end

/-! ## The tables of a definition -/

section

variable {jdk : Jdk} {numbers : Numbers} {dialect : Dialect} {allData : List (List String)}
  {map : List (String × List Record)} {e : String × List Record}

/-- A record of a table is read from a line. -/
theorem line_of_mem (hmap : mapifyCSV numbers allData = some map) (he : e ∈ map) :
    ∀ rec ∈ e.2, ∃ line ∈ allData, ∃ t, Record.ofLine numbers line = some (t, rec) := by
  intro rec hrec
  rw [mem_mapifyCSV hmap he, recordsOf, List.mem_filterMap] at hrec
  obtain ⟨line, hmem, hrec⟩ := hrec
  split at hrec
  case h_1 t rec' heq =>
    split at hrec
    · cases hrec
      exact ⟨line, hmem, t, heq⟩
    · cases hrec
  case h_2 => cases hrec

theorem types_of_definition (hdefinition : IndexDefinition numbers dialect allData)
    (hmap : mapifyCSV numbers allData = some map) (he : e ∈ map) :
    ∀ rec ∈ e.2, rec.colType ∈ ["String", "Date", "Time", "Double"] := by
  intro rec hrec
  obtain ⟨line, hmem, t, heq⟩ := line_of_mem hmap he rec hrec
  exact hdefinition.types line hmem t rec heq

theorem bindable_of_definition (hdefinition : IndexDefinition numbers dialect allData)
    (hmap : mapifyCSV numbers allData = some map) (he : e ∈ map) :
    ∀ rec ∈ e.2, Bindable numbers rec := by
  intro rec hrec hString
  obtain ⟨line, hmem, t, heq⟩ := line_of_mem hmap he rec hrec
  have htype : rec.colType = "String" := by
    by_contra hne
    have hval := colTypeVal_eq (types_of_definition hdefinition hmap he rec hrec)
    rw [if_neg hne, colTypeVal, if_pos hString] at hval
    cases hval
  obtain ⟨v, hdocumented, hlow, hhigh⟩ := hdefinition.lengths line hmem t rec heq htype
  exact bindable_of_documented hdocumented (by linarith) hhigh hString

/-- The writer binds each placeholder once. -/
theorem row_bound (htypes : ∀ rec ∈ e.2, rec.colType ∈ ["String", "Date", "Time", "Double"])
    (hbind : ∀ rec ∈ e.2, Bindable numbers rec) {table : ObjectsTable} (env : Surroundings table)
    (i : ℕ) (name : String) (keys : List ℕ)
    (hkeys : keys.Perm ((getInsertQueryDetails numbers e.1 e.2).queryColoumMap.map Prod.fst)) :
    ∃ r calls, row jdk numbers env e.2 i name = some r ∧
      bindings jdk numbers env (getInsertQueryDetails numbers e.1 e.2).queryColoumMap i
        name keys = some calls ∧ BoundOnce e.2 r calls := by
  rw [keys_eq] at hkeys
  obtain ⟨values, hvalues⟩ := (columnValues_iff jdk numbers env e.2 i name).mpr hbind
  have hrow := row_eq jdk numbers env e.2 i name
  rw [hvalues, Option.map_some] at hrow
  obtain ⟨calls, hcalls, hfst, hvals⟩ :=
    bindings_eq e.1 (allValues_eq hvalues) fun j hj => hkeys.mem_iff.mp hj
  have hlength : values.length ≤ (e.2.map Record.colName).length := by
    rw [length_of_mapM hvalues, List.length_zipIdx, List.length_map, List.length_map]
  have hassigned : (assigned ⟨(e.2.map Record.colName).zip values, name, name⟩).map Prod.snd =
      values ++ [.varchar name, .varchar name] := by
    rw [assigned, List.map_append, List.map_snd_zip hlength]
    rfl
  refine ⟨_, calls, hrow, hcalls, ?_, ?_, ?_⟩
  · rw [hfst]
    exact hkeys
  · rw [hassigned]
    exact hvals
  · intro c hc
    have htypesOf : (values ++ [ColumnValue.varchar name, .varchar name]).map typeOf =
        e.2.map colTypeVal ++ [.varchar, .varchar] := by
      rw [List.map_append, typeOf_columnValues htypes hvalues]
      rfl
    rw [← htypesOf, List.getElem?_map, hvals c hc]
    rfl

/-- What a task has inserted into a table is read back. -/
theorem run_readsBack (htypes : ∀ rec ∈ e.2, rec.colType ∈ ["String", "Date", "Time", "Double"])
    (hdistinct : Distinct dialect e.2) {tables' : List (String × Schema)}
    (htables : column tables' (dialect.fold e.1) =
      some ((createTable e.1 e.2).schema dialect))
    {table : ObjectsTable} {env : Surroundings table} (henv : Fresh env) :
    ∃ cells, (IndexInsertionTask.run jdk numbers env e.2).mapM
        (store dialect ((createTable e.1 e.2).schema dialect)) = some cells ∧
      ∀ rows, rows.Perm cells → ∀ r ∈ IndexInsertionTask.run jdk numbers env e.2,
        ∃ d, getIndexRecord dialect tables' rows r.nameLower e.1 = some d ∧
          ReadsBack dialect e.2 r d := by
  have hX : ∀ r ∈ IndexInsertionTask.run jdk numbers env e.2, OfDefinition e.2 r := by
    intro r hr
    rcases loop_sound _ _ _ _ _ _ (fun _ => mem_page) hr with hmem | ⟨i, o, -, hrow⟩
    · cases hmem
    · exact ofDefinition_of_row htypes hrow
  have hunique : Foundation.KeyedRows.Unique IndexRow.name
      (IndexInsertionTask.run jdk numbers env e.2) :=
    loop_unique henv _ _ _ _ _ _ List.nodup_nil
  refine ⟨_, mapM_store hdistinct hX, ?_⟩
  intro rows hrows r hr
  exact ⟨_, getIndexRecord_stored hdistinct hX hunique htables hrows hr,
    readsBack_of_definition htypes hdistinct (hX r hr)⟩

end

/-- **Schema, writer and reader stay aligned**, for every definition as it is meant. -/
theorem index_schema_aligned (jdk : Jdk) (numbers : Numbers) (dialect : Dialect)
    (allData : List (List String)) (map : List (String × List Record))
    (hdefinition : IndexDefinition numbers dialect allData)
    (hmap : mapifyCSV numbers allData = some map) :
    ∀ e ∈ map, SchemaAligned jdk numbers dialect map e.1 e.2 := by
  intro e he
  have htypes := types_of_definition hdefinition hmap he
  have hdistinct : Distinct dialect e.2 := by
    rw [mem_mapifyCSV hmap he]
    exact hdefinition.names e.1
  refine ⟨createQuery_eq e.1 e.2, ⟨_, query_eq numbers e.1 e.2, rfl, rfl, ?_⟩, ?_, ?_⟩
  · rw [List.length_append, List.length_map]
    rfl
  · exact row_bound htypes (bindable_of_definition hdefinition hmap he)
  · intro order tables tables' horder hcreate table env henv
    exact run_readsBack htypes hdistinct
      ((column_createIndexTable hcreate).2 e (horder.mem_iff.mpr he)) henv

/-! ## Two tables -/

/-- Names in lower case. -/
def lowerCase : Dialect where
  fold s := String.ofList (s.toList.map Char.toLower)
  typeName t := match t with
    | .varchar => "varchar"
    | .float => "float8"
  varchar := by decide +kernel
  float := by decide +kernel

/-- The rows of one table stand around the row of the other. -/
def twoTables : List (List String) :=
  [["idx", "1", "Note", "String", "1", "1", "5.0"],
   ["other", "1", "Price", "Double", "1", "1", ""],
   ["idx", "1", "Day", "Date", "1", "1", ""]]

def noteRecord : Record := ⟨"Note", "String", 1, 0x4014000000000000#64⟩

def priceRecord : Record := ⟨"Price", "Double", 1, 0⟩

def dayRecord : Record := ⟨"Day", "Date", 1, 0⟩

theorem ofLine_twoTables : twoTables.map (Record.ofLine twoLengths) =
    [some ("idx", noteRecord), some ("other", priceRecord), some ("idx", dayRecord)] := rfl

theorem twoTables_definition : IndexDefinition twoLengths lowerCase twoTables := by
  have hlines : ∀ line ∈ twoTables, ∀ t rec,
      Record.ofLine twoLengths line = some (t, rec) →
        rec = noteRecord ∨ rec = priceRecord ∨ rec = dayRecord := by
    intro line hline t rec hrec
    have hmem : some (t, rec) ∈ twoTables.map (Record.ofLine twoLengths) :=
      List.mem_map.mpr ⟨line, hline, hrec⟩
    rw [ofLine_twoTables] at hmem
    simp only [List.mem_cons, Option.some.injEq, Prod.mk.injEq, List.not_mem_nil, or_false] at hmem
    rcases hmem with ⟨-, h⟩ | ⟨-, h⟩ | ⟨-, h⟩
    · exact .inl h
    · exact .inr (.inl h)
    · exact .inr (.inr h)
  refine ⟨?_, ?_, ?_⟩
  · intro line hline t rec hrec
    rcases hlines line hline t rec hrec with rfl | rfl | rfl
    all_goals decide +kernel
  · intro line hline t rec hrec htype
    rcases hlines line hline t rec hrec with rfl | rfl | rfl
    · exact ⟨5, twoLengths_five, by norm_num, by norm_num⟩
    · exact absurd htype (by decide +kernel)
    · exact absurd htype (by decide +kernel)
  · intro t
    by_cases hidx : "idx" = t
    · subst hidx
      unfold Distinct
      decide +kernel
    · by_cases hother : "other" = t
      · subst hother
        unfold Distinct
        decide +kernel
      · have hnone : recordsOf twoLengths twoTables t = [] := by
          have hrecords : recordsOf twoLengths twoTables t =
              [some ("idx", noteRecord), some ("other", priceRecord),
                some ("idx", dayRecord)].filterMap fun line =>
                  match line with
                  | some (t', rec) => if t' = t then some rec else none
                  | none => none := rfl
          rw [hrecords]
          simp [hidx, hother]
        rw [hnone]
        unfold Distinct
        decide +kernel

/-- Both tables of the definition are aligned. -/
theorem twoTables_aligned :
    SchemaAligned Jdk.ascii twoLengths lowerCase
        [("idx", [noteRecord, dayRecord]), ("other", [priceRecord])] "idx" [noteRecord, dayRecord] ∧
      SchemaAligned Jdk.ascii twoLengths lowerCase
        [("idx", [noteRecord, dayRecord]), ("other", [priceRecord])] "other" [priceRecord] := by
  have haligned :=
    index_schema_aligned Jdk.ascii twoLengths lowerCase twoTables _ twoTables_definition rfl
  refine ⟨haligned ("idx", [noteRecord, dayRecord]) ?_, haligned ("other", [priceRecord]) ?_⟩
  · exact List.mem_cons_self
  · exact List.mem_cons_of_mem _ List.mem_cons_self

end AuroraSizing.IndexSchema

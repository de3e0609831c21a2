import AuroraSizing.Lookup.Agreement
import Mathlib.Order.Defs.Unbundled

/-!
# Lookups of every get type

A get type is a comparison and a direction, and a lookup by type has one more condition. The
texts of both lookups are read back for all of them, and each answers the first of the names that
match.
-/

namespace AuroraSizing.Lookup

open Foundation.SqlText

/-! ## The get types -/

inductive GetType where
  | metadataGetFirst
  | metadataGetLast
  | metadataGetEqual
  | metadataGetLess
  | metadataGetLe
  | metadataGetGreater
  | metadataGetGe
  | metadataGetNext
  | metadataGetPrev
deriving DecidableEq, Repr

def GetType.getNumber : GetType → JInt
  | metadataGetFirst => 0
  | metadataGetLast => 1
  | metadataGetEqual => 2
  | metadataGetLess => 3
  | metadataGetLe => 4
  | metadataGetGreater => METADATA_GET_GREATER
  | metadataGetGe => 6
  | metadataGetNext => 7
  | metadataGetPrev => 8

/-- What the names are compared by, and their order. -/
def GetType.asks : GetType → Comparison × Direction
  | metadataGetEqual => (.eq, .asc)
  | metadataGetLess => (.le, .asc)
  | metadataGetLe => (.le, .desc)
  | metadataGetGe => (.ge, .desc)
  | metadataGetGreater | metadataGetFirst | metadataGetLast | metadataGetNext
  | metadataGetPrev => (.ge, .asc)

def Comparison.op : Comparison → String
  | .eq => "="
  | .le => "<="
  | .ge => ">="

def Direction.word : Direction → String
  | .asc => "asc"
  | .desc => "desc"

theorem expression_getNumber (g : GetType) :
    expression g.getNumber = (g.asks.1.op, g.asks.2.word) := by
  cases g <;> rfl

/-! ## Lookups by type -/

def LOOKUP_OBJECTS_BY_TYPEID : String :=
  "select name from objects where nameLower %s ? and typeId = ? order by nameLower %s LIMIT ?"

/-- `ObjectRepository.lookupById` -/
def ObjectRepository.lookupById (jdk : Jdk) (name : String) (typeId limit objectType : JInt) :
    Statement :=
  let exp := expression typeId
  ⟨formatS LOOKUP_OBJECTS_BY_TYPEID.toList [exp.1, exp.2],
    [.text (jdk.toLowerCase name), .int objectType.toInt, .int limit.toInt]⟩

/-- `select name from objects where nameLower … and typeId = … order by nameLower … limit …` -/
structure TypeQuery where
  comparison : Comparison
  bound : Operand
  objectType : Operand
  order : Direction
  limit : Operand
deriving DecidableEq, Repr

def TypeQuery.parse (tokens : List Token) : Option TypeQuery :=
  if tokens.take 6 = selectName then
    match tokens.drop 6 with
    | [.symbol op, bound, .word "and", .word "typeid", .symbol "=", objectType, .word "order",
        .word "by", .word "namelower", .word dir, .word "limit", limit] => do
        return ⟨← Comparison.ofOp op, ← Operand.ofToken bound, ← Operand.ofToken objectType,
          ← Direction.ofWord dir, ← Operand.ofToken limit⟩
    | _ => none
  else none

/-- The statement may answer `names`. -/
def ReturnsOfType {jdk : Jdk} (col : Collation) (table : LowerTable jdk) (s : Statement)
    (names : List String) : Prop :=
  ∃ q bound objectType limit rows, (lex s.text).bind TypeQuery.parse = some q ∧
    q.bound.value s.values = some (.text bound) ∧
    q.objectType.value s.values = some (.int objectType) ∧
    q.limit.value s.values = some (.int limit) ∧ 0 ≤ limit ∧
    rows.Perm (table.rows.filter fun r =>
      q.comparison.holds col r.nameLower bound && (r.typeId.toInt == objectType)) ∧
    Ordered col (some q.order) rows ∧
    names = (rows.take limit.toNat).map ObjectRow.name

/-! ## What the texts ask for -/

/-- Text without a `%` is copied, and a `%s` behind it replaced. -/
theorem formatS_append {cs rest : List Char} {arg : String} {args : List String} (h : '%' ∉ cs) :
    formatS (cs ++ ("%s".toList ++ rest)) (arg :: args) =
      cs ++ (arg.toList ++ formatS rest args) := by
  induction cs with
  | nil => rfl
  | cons c cs ih =>
      rw [List.mem_cons, not_or] at h
      have hc : c ≠ '%' := fun heq => h.1 heq.symm
      have hrest := ih h.2
      rw [List.cons_append, formatS.eq_2 _ _ _ fun _ _ _ _ heq _ => hc heq, hrest]
      rfl

/-! The texts are read piece by piece. -/

theorem lex_select (rest : List Char) :
    Lexer.run {} ("select name from objects where nameLower ".toList ++ rest) =
      Lexer.run ⟨selectName, .between, 0⟩ rest := by
  have h : Lexer.run {} "select name from objects where nameLower ".toList =
      ⟨selectName, .between, 0⟩ := by
    decide +kernel
  rw [Lexer.run_append, h]

theorem lex_comparison (c : Comparison) (ts : List Token) (k : ℕ) (rest : List Char) :
    Lexer.run ⟨ts, .between, k⟩ (c.op.toList ++ (" ? ".toList ++ rest)) =
      Lexer.run ⟨ts ++ [.symbol c.op] ++ [.param (k + 1)], .between, k + 1⟩ rest := by
  rw [← List.append_assoc, Lexer.run_append]
  cases c <;> rfl

theorem lex_type (ts : List Token) (k : ℕ) (rest : List Char) :
    Lexer.run ⟨ts, .between, k⟩ ("and typeId = ? ".toList ++ rest) =
      Lexer.run ⟨ts ++ [.word "and"] ++ [.word "typeid"] ++ [.symbol "="] ++
        [.param (k + 1)], .between, k + 1⟩ rest := by
  rw [Lexer.run_append]
  rfl

theorem lex_order (ts : List Token) (k : ℕ) (rest : List Char) :
    Lexer.run ⟨ts, .between, k⟩ ("order by nameLower ".toList ++ rest) =
      Lexer.run ⟨ts ++ [.word "order"] ++ [.word "by"] ++ [.word "namelower"], .between, k⟩
        rest := by
  rw [Lexer.run_append]
  rfl

theorem lex_limit (d : Direction) (ts : List Token) (k : ℕ) :
    (Lexer.run ⟨ts, .between, k⟩ (d.word.toList ++ " LIMIT ?".toList)).finish =
      some (ts ++ [.word d.word] ++ [.word "limit"] ++ [.param (k + 1)]) := by
  cases d <;> rfl

/-- The text of a lookup says what it was formatted with. -/
theorem parse_formatted (c : Comparison) (d : Direction) :
    (lex (formatS LOOKUP_OBJECTS.toList [c.op, d.word])).bind LookupQuery.parse =
      some ⟨c, .param 1, some d, .param 2⟩ := by
  have htext : LOOKUP_OBJECTS = "select name from objects where nameLower " ++
      ("%s" ++ ((" ? " ++ "order by nameLower ") ++ ("%s" ++ " LIMIT ?"))) := by
    decide +kernel
  have hlimit : formatS " LIMIT ?".toList [] = " LIMIT ?".toList := by decide +kernel
  rw [htext]
  simp only [String.toList_append]
  rw [formatS_append (by decide +kernel), formatS_append (by decide +kernel), hlimit, lex,
    lex_select, List.append_assoc, lex_comparison, lex_order, lex_limit]
  cases c <;> cases d <;> rfl

theorem parse_formatted_of_type (c : Comparison) (d : Direction) :
    (lex (formatS LOOKUP_OBJECTS_BY_TYPEID.toList [c.op, d.word])).bind TypeQuery.parse =
      some ⟨c, .param 1, .param 2, d, .param 3⟩ := by
  have htext : LOOKUP_OBJECTS_BY_TYPEID = "select name from objects where nameLower " ++
      ("%s" ++ ((" ? " ++ ("and typeId = ? " ++ "order by nameLower ")) ++
        ("%s" ++ " LIMIT ?"))) := by
    decide +kernel
  have hlimit : formatS " LIMIT ?".toList [] = " LIMIT ?".toList := by decide +kernel
  rw [htext]
  simp only [String.toList_append]
  rw [formatS_append (by decide +kernel), formatS_append (by decide +kernel), hlimit, lex,
    lex_select, List.append_assoc, List.append_assoc, lex_comparison, lex_type, lex_order,
    lex_limit]
  cases c <;> cases d <;> rfl

/-! ## What a client asks for -/

/-- The fields of `CmdLookupByName` and `CmdNameLookupByType` that stay the same from page to
page; the second has an object type. -/
structure Search where
  getType : GetType
  count : JInt
  securityType : Option JInt
deriving DecidableEq, Repr

namespace Search

variable {jdk : Jdk} {col : Collation} {s : Search} {table : LowerTable jdk} {pattern : String}

/-- `lookup` or `lookupById` may answer these names. -/
def Answers (col : Collation) (s : Search) (table : LowerTable jdk) (pattern : String)
    (names : List String) : Prop :=
  match s.securityType with
  | none =>
      Returns col table (ObjectRepository.lookup jdk pattern s.getType.getNumber s.count) names
  | some objectType => ReturnsOfType col table
      (ObjectRepository.lookupById jdk pattern s.getType.getNumber s.count objectType) names

/-- The rows it is about. -/
def rows (s : Search) (table : LowerTable jdk) : List ObjectRow :=
  match s.securityType with
  | none => table.rows
  | some objectType => table.rows.filter fun r => r.typeId.toInt == objectType.toInt

def holds (col : Collation) (s : Search) (jdk : Jdk) (pattern : String) (r : ObjectRow) : Bool :=
  s.getType.asks.1.holds col r.nameLower (jdk.toLowerCase pattern)

end Search

/-- Before or at, in this direction. -/
def Direction.along (col : Collation) : Direction → String → String → Bool
  | .asc, s, t => col.le s t
  | .desc, s, t => col.le t s

theorem Direction.along_refl (col : Collation) (d : Direction) (s : String) :
    d.along col s s = true := by
  have h : col.le s s = true := by simpa using col.total s s
  cases d <;> exact h

instance (col : Collation) (d : Direction) :
    IsLinearOrder String (fun s t => d.along col s t = true) where
  refl := d.along_refl col
  trans s t u hst htu := by
    cases d with
    | asc => exact col.trans s t u hst htu
    | desc => exact col.trans u t s htu hst
  antisymm s t hst hts := by
    cases d with
    | asc => exact col.antisymm s t hst hts
    | desc => exact (col.antisymm t s hst hts).symm
  total s t := by
    have h : col.le s t = true ∨ col.le t s = true := by simpa using col.total s t
    cases d with
    | asc => exact h
    | desc => exact h.symm

theorem ordered_iff (col : Collation) (d : Direction) (rows : List ObjectRow) :
    Ordered col (some d) rows ↔
      rows.Pairwise fun r s => d.along col r.nameLower s.nameLower = true := by
  cases d <;> exact Iff.rfl

namespace Search

variable {jdk : Jdk} {col : Collation} {s : Search} {table : LowerTable jdk} {pattern : String}

/-- All names that match, in order. -/
def names (col : Collation) (s : Search) (table : LowerTable jdk) (pattern : String) :
    List String :=
  (((s.rows table).filter (s.holds col jdk pattern)).mergeSort fun r t =>
    s.getType.asks.2.along col r.nameLower t.nameLower).map ObjectRow.name

/-! ## What is answered -/

theorem rows_sublist (s : Search) (table : LowerTable jdk) : (s.rows table).Sublist table.rows := by
  unfold rows
  split
  · exact List.Sublist.refl _
  · exact List.filter_sublist

/-- A lookup by type is a lookup in the rows of the type. -/
theorem answers_iff_rows (hcount : 0 ≤ s.count.toInt) {names : List String} :
    s.Answers col table pattern names ↔ ∃ found : List ObjectRow,
      found.Perm ((s.rows table).filter (s.holds col jdk pattern)) ∧
      Ordered col (some s.getType.asks.2) found ∧
      names = (found.take s.count.toInt.toNat).map ObjectRow.name := by
  unfold Answers rows
  split
  · have htext : (ObjectRepository.lookup jdk pattern s.getType.getNumber s.count).text =
        formatS LOOKUP_OBJECTS.toList [s.getType.asks.1.op, s.getType.asks.2.word] := by
      simp only [ObjectRepository.lookup, expression_getNumber]
    constructor
    · rintro ⟨q, bound, n, found, hparse, hbound, hn, -, hperm, hordered, rfl⟩
      rw [htext, parse_formatted, Option.some.injEq] at hparse
      subst hparse
      obtain rfl : jdk.toLowerCase pattern = bound := by
        simpa [Operand.value, ObjectRepository.lookup] using hbound
      obtain rfl : s.count.toInt = n := by
        simpa [Operand.value, ObjectRepository.lookup] using hn
      exact ⟨found, hperm, hordered, rfl⟩
    · rintro ⟨found, hperm, hordered, rfl⟩
      exact ⟨_, jdk.toLowerCase pattern, s.count.toInt, found,
        (congrArg (fun text => (lex text).bind LookupQuery.parse) htext).trans
          (parse_formatted _ _),
        rfl, rfl, hcount, hperm, hordered, rfl⟩
  · rename_i objectType _
    have htext : (ObjectRepository.lookupById jdk pattern s.getType.getNumber s.count
        objectType).text =
        formatS LOOKUP_OBJECTS_BY_TYPEID.toList
          [s.getType.asks.1.op, s.getType.asks.2.word] := by
      simp only [ObjectRepository.lookupById, expression_getNumber]
    constructor
    · rintro ⟨q, bound, type, n, found, hparse, hbound, htype, hn, -, hperm, hordered, rfl⟩
      rw [htext, parse_formatted_of_type, Option.some.injEq] at hparse
      subst hparse
      obtain rfl : jdk.toLowerCase pattern = bound := by
        simpa [Operand.value, ObjectRepository.lookupById] using hbound
      obtain rfl : objectType.toInt = type := by
        simpa [Operand.value, ObjectRepository.lookupById] using htype
      obtain rfl : s.count.toInt = n := by
        simpa [Operand.value, ObjectRepository.lookupById] using hn
      refine ⟨found, ?_, hordered, rfl⟩
      rw [List.filter_filter]
      exact hperm
    · rintro ⟨found, hperm, hordered, rfl⟩
      rw [List.filter_filter] at hperm
      exact ⟨_, jdk.toLowerCase pattern, objectType.toInt, s.count.toInt, found,
        (congrArg (fun text => (lex text).bind TypeQuery.parse) htext).trans
          (parse_formatted_of_type _ _),
        rfl, rfl, rfl, hcount, hperm, hordered, rfl⟩

/-! ## All the names that match -/

theorem mem_names {name : String} : name ∈ s.names col table pattern ↔
    ∃ r ∈ s.rows table, s.holds col jdk pattern r = true ∧ r.name = name := by
  simp only [names, List.mem_map, List.mem_mergeSort, List.mem_filter, and_assoc]

/-- In order, and no two names with one lower case. -/
theorem names_sorted (col : Collation) (s : Search) (table : LowerTable jdk) (pattern : String) :
    (s.names col table pattern).Pairwise fun a b =>
      s.getType.asks.2.along col (jdk.toLowerCase a) (jdk.toLowerCase b) = true ∧
        jdk.toLowerCase a ≠ jdk.toLowerCase b := by
  set along := fun r t : ObjectRow => s.getType.asks.2.along col r.nameLower t.nameLower
  set found := (s.rows table).filter (s.holds col jdk pattern)
  have hmem : ∀ r ∈ found.mergeSort along, r ∈ table.rows := by
    intro r hr
    exact (s.rows_sublist table).subset (List.mem_of_mem_filter (List.mem_mergeSort.mp hr))
  have hsorted : (found.mergeSort along).Pairwise fun r t => along r t = true := by
    apply List.pairwise_mergeSort
    · exact fun r t u => trans_of fun a b => s.getType.asks.2.along col a b = true
    · intro r t
      rw [Bool.or_eq_true]
      exact total_of (fun a b => s.getType.asks.2.along col a b = true) r.nameLower t.nameLower
  have hkeys : (found.mergeSort along).Pairwise fun r t => r.nameLower ≠ t.nameLower := by
    have hunique : (found.map ObjectRow.nameLower).Nodup := by
      refine List.Nodup.sublist (List.Sublist.map _ ?_) table.objectLowerName
      exact List.filter_sublist.trans (s.rows_sublist table)
    have hperm := (List.mergeSort_perm found along).map ObjectRow.nameLower
    exact List.pairwise_map.mp (hperm.nodup_iff.mpr hunique)
  rw [names, List.pairwise_map]
  refine (hsorted.and hkeys).imp_of_mem ?_
  intro r t hr ht h
  rw [← table.lower r (hmem r hr), ← table.lower t (hmem t ht)]
  exact h

/-- **A lookup is a function**: the first of the names that match. -/
theorem answers_iff (hcount : 0 ≤ s.count.toInt) {page : List String} :
    s.Answers col table pattern page ↔
      page = (s.names col table pattern).take s.count.toInt.toNat := by
  rw [answers_iff_rows hcount]
  constructor
  · rintro ⟨found, hperm, hordered, rfl⟩
    -- rows of one table in one order are one list
    have hsorted : (found.map ObjectRow.name).Pairwise fun a b =>
        s.getType.asks.2.along col (jdk.toLowerCase a) (jdk.toLowerCase b) = true := by
      rw [List.pairwise_map]
      refine ((ordered_iff col _ found).mp hordered).imp_of_mem ?_
      intro r t hr ht h
      have hr' := (s.rows_sublist table).subset (List.mem_of_mem_filter (hperm.subset hr))
      have ht' := (s.rows_sublist table).subset (List.mem_of_mem_filter (hperm.subset ht))
      rw [← table.lower r hr', ← table.lower t ht']
      exact h
    have hall : (found.map ObjectRow.name).Perm (s.names col table pattern) := by
      apply List.Perm.map
      exact hperm.trans (List.mergeSort_perm _ _).symm
    have heq : found.map ObjectRow.name = s.names col table pattern := by
      refine List.Perm.eq_of_pairwise ?_ hsorted ((s.names_sorted col table pattern).imp And.left)
        hall
      intro a b ha hb hab hba
      have hkey := antisymm_of (fun x y => s.getType.asks.2.along col x y = true) hab hba
      by_contra hne
      have hboth : a ∈ s.names col table pattern := hall.subset ha
      have hdiff : (s.names col table pattern).Pairwise fun a b =>
          jdk.toLowerCase a ≠ jdk.toLowerCase b := (s.names_sorted col table pattern).imp And.right
      exact hne (List.inj_on_of_nodup_map (List.pairwise_map.mpr hdiff) hboth hb hkey)
    rw [List.map_take, heq]
  · rintro rfl
    refine ⟨_, List.mergeSort_perm _ _, ?_, by rw [names, List.map_take]⟩
    rw [ordered_iff]
    have hsorted := s.names_sorted col table pattern
    rw [names, List.pairwise_map] at hsorted
    refine hsorted.imp_of_mem ?_
    intro r t hr ht h
    have hr' := (s.rows_sublist table).subset
      (List.mem_of_mem_filter (List.mem_mergeSort.mp hr))
    have ht' := (s.rows_sublist table).subset
      (List.mem_of_mem_filter (List.mem_mergeSort.mp ht))
    rw [table.lower r hr', table.lower t ht']
    exact h.1

end Search

end AuroraSizing.Lookup

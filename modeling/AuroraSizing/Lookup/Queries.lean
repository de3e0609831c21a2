import AuroraSizing.Foundation.SqlText
import AuroraSizing.Objects.Tables
import Mathlib.Data.List.Sort

/-!
# The two lookup queries

The Java repository formats its comparison and its direction into a text with
two `?`; the C++ repository hands pieces to a query builder. Both texts are read
back here, and `Returns` says what the database may answer: the matching rows in
the order asked for, or in any order when none is, cut at the limit.
-/

namespace AuroraSizing.Lookup

open Foundation.SqlText

/-! ## The query language -/

inductive Comparison where
  | eq
  | le
  | ge
deriving DecidableEq, Repr

inductive Direction where
  | asc
  | desc
deriving DecidableEq, Repr

inductive Operand where
  | text (s : String)
  | param (n : ℕ)
deriving DecidableEq, Repr

/-- `select name from objects where nameLower … [order by nameLower …] limit …` -/
structure LookupQuery where
  comparison : Comparison
  bound : Operand
  order : Option Direction
  limit : Operand
deriving DecidableEq, Repr

def Comparison.ofOp : String → Option Comparison
  | "=" => some .eq
  | "<=" => some .le
  | ">=" => some .ge
  | _ => none

def Direction.ofWord : String → Option Direction
  | "asc" => some .asc
  | "desc" => some .desc
  | _ => none

def Operand.ofToken : Token → Option Operand
  | .literal s => some (.text s)
  | .param n => some (.param n)
  | .word _ | .name _ | .symbol _ => none

def selectName : List Token :=
  [.word "select", .word "name", .word "from", .word "objects", .word "where", .word "namelower"]

def LookupQuery.parse (tokens : List Token) : Option LookupQuery :=
  if tokens.take 6 = selectName then
    match tokens.drop 6 with
    | [.symbol op, bound, .word "limit", limit] => do
        return ⟨← Comparison.ofOp op, ← Operand.ofToken bound, none, ← Operand.ofToken limit⟩
    | [.symbol op, bound, .word "order", .word "by", .word "namelower", .word dir, .word "limit",
        limit] => do
        return ⟨← Comparison.ofOp op, ← Operand.ofToken bound, some (← Direction.ofWord dir),
          ← Operand.ofToken limit⟩
    | _ => none
  else none

def Operand.value (values : List Value) : Operand → Option Value
  | .text s => some (.text s)
  | .param 0 => none
  | .param (n + 1) => values[n]?

/-! ## What the database may answer -/

/-- The order of the `nameLower` column. -/
structure Collation where
  le : String → String → Bool
  trans : ∀ s t u, le s t → le t u → le s u
  antisymm : ∀ s t, le s t → le t s → s = t
  total : ∀ s t, le s t || le t s

/-- An `objects` table whose rows stand under their lower-cased names. -/
structure LowerTable (jdk : Jdk) extends ObjectsTable where
  lower : LowerNames jdk rows

def Comparison.holds (col : Collation) : Comparison → String → String → Bool
  | .eq, nameLower, bound => nameLower = bound
  | .le, nameLower, bound => col.le nameLower bound
  | .ge, nameLower, bound => col.le bound nameLower

/-- Without `order by` any order will do. -/
def Ordered (col : Collation) : Option Direction → List ObjectRow → Prop
  | none, _ => True
  | some .asc, rows => rows.Pairwise fun r s => col.le r.nameLower s.nameLower
  | some .desc, rows => rows.Pairwise fun r s => col.le s.nameLower r.nameLower

/-- The statement may answer `names`. -/
def Returns {jdk : Jdk} (col : Collation) (table : LowerTable jdk) (s : Statement)
    (names : List String) : Prop :=
  ∃ q bound limit rows, (lex s.text).bind LookupQuery.parse = some q ∧
    q.bound.value s.values = some (.text bound) ∧
    q.limit.value s.values = some (.int limit) ∧ 0 ≤ limit ∧
    rows.Perm (table.rows.filter fun r => q.comparison.holds col r.nameLower bound) ∧
    Ordered col q.order rows ∧
    names = (rows.take limit.toNat).map ObjectRow.name

/-! ## The two repositories -/

/-- A count the clients may send: a `short` above 0. -/
abbrev Count := { c : BitVec 16 // 0 < c.toInt }

def LOOKUP_OBJECTS : String :=
  "select name from objects where nameLower %s ? order by nameLower %s LIMIT ?"

/-- `ObjectRepository.expression` -/
def expression (number : JInt) : String × String :=
  if number = 2 then ("=", "asc")
  else if number = 3 then ("<=", "asc")
  else if number = 4 then ("<=", "desc")
  else if number = 5 then (">=", "asc")
  else if number = 6 then (">=", "desc")
  else (">=", "asc")

/-- `ObjectRepository.lookup` -/
def ObjectRepository.lookup (jdk : Jdk) (name : String) (typeId limit : JInt) : Statement :=
  let exp := expression typeId
  ⟨formatS LOOKUP_OBJECTS.toList [exp.1, exp.2],
    [.text (jdk.toLowerCase name), .int limit.toInt]⟩

def METADATA_GET_GREATER : JInt := 5

/-- `Repository::lookup_async` -/
def Repository.lookupAsync (namePrefix : String) (count : BitVec 16) : Statement :=
  render [.sql "select name from objects where nameLower >='", .value (.text namePrefix),
    .sql "' LIMIT ", .value (.int count.toInt)]

/-- Same names, same order, whatever the database picks. -/
def LookupsAgree {jdk : Jdk} (col : Collation) (table : LowerTable jdk) (namePrefix : String)
    (count : Count) : Prop :=
  ∀ names, Returns col table (Repository.lookupAsync namePrefix count.val) names ↔
    Returns col table
      (ObjectRepository.lookup jdk namePrefix METADATA_GET_GREATER (count.val.signExtend 32)) names

/-! ## What each of them asks for -/

theorem parse_lookup (jdk : Jdk) (name : String) (limit : JInt) :
    (lex (ObjectRepository.lookup jdk name METADATA_GET_GREATER limit).text).bind
      LookupQuery.parse = some ⟨.ge, .param 1, some .asc, .param 2⟩ := by
  have htext : (ObjectRepository.lookup jdk name METADATA_GET_GREATER limit).text =
      formatS LOOKUP_OBJECTS.toList [">=", "asc"] := rfl
  rw [htext]
  decide +kernel

/-- The bound is the two characters `$1`: the placeholder of the prefix stands
between the quotes. -/
theorem parse_lookupAsync (namePrefix : String) (count : BitVec 16) :
    (lex (Repository.lookupAsync namePrefix count).text).bind LookupQuery.parse =
      some ⟨.ge, .text "$1", none, .param 2⟩ := by
  have htext : (Repository.lookupAsync namePrefix count).text =
      (Repository.lookupAsync "" 0).text := rfl
  rw [htext]
  decide +kernel

/-! ## Any rows -/

/-- `Returns`, whatever the rows stand under. -/
def Answers (col : Collation) (rows : List ObjectRow) (s : Statement) (names : List String) :
    Prop :=
  ∃ q bound limit found, (lex s.text).bind LookupQuery.parse = some q ∧
    q.bound.value s.values = some (.text bound) ∧
    q.limit.value s.values = some (.int limit) ∧ 0 ≤ limit ∧
    found.Perm (rows.filter fun r => q.comparison.holds col r.nameLower bound) ∧
    Ordered col q.order found ∧
    names = (found.take limit.toNat).map ObjectRow.name

theorem returns_iff_answers {jdk : Jdk} {col : Collation} {table : LowerTable jdk} {s : Statement}
    {names : List String} : Returns col table s names ↔ Answers col table.rows s names := Iff.rfl

/-- The C++ lookup is a choice: any rows from `$1` on, in any order. A negative limit is an
error. -/
theorem answers_lookupAsync_iff {col : Collation} {rows : List ObjectRow} {namePrefix : String}
    {count : BitVec 16} {names : List String} :
    Answers col rows (Repository.lookupAsync namePrefix count) names ↔
      0 ≤ count.toInt ∧ ∃ found : List ObjectRow,
        found.Perm (rows.filter fun r => col.le "$1" r.nameLower) ∧
        names = (found.take count.toInt.toNat).map ObjectRow.name := by
  constructor
  · rintro ⟨q, bound, n, found, hparse, hbound, hn, hcount, hperm, -, rfl⟩
    rw [parse_lookupAsync, Option.some.injEq] at hparse
    subst hparse
    obtain rfl : "$1" = bound := by simpa [Operand.value] using hbound
    obtain rfl : count.toInt = n := by
      simpa [Operand.value, Repository.lookupAsync, render, renderFrom] using hn
    exact ⟨hcount, found, hperm, rfl⟩
  · rintro ⟨hcount, found, hperm, rfl⟩
    exact ⟨_, "$1", count.toInt, found, parse_lookupAsync namePrefix count, rfl, rfl, hcount,
      hperm, trivial, rfl⟩

end AuroraSizing.Lookup

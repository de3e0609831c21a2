import AuroraSizing.Foundation.SqlText

/-!
# Reading a `select`

`parse` reads one `select *` with a condition out of the tokens of a text. A text that comes
between two quotes of a query is one string of it exactly when it has no quote itself.
-/

namespace Foundation.SqlSelect

open Foundation.SqlText

inductive Operand where
  | column (s : String)
  | literal (s : String)
deriving DecidableEq, Repr

structure Comparison where
  left : Operand
  right : Operand
deriving DecidableEq, Repr

/-- One of the comparisons holds. -/
structure Select where
  table : List Token
  condition : List Comparison
deriving DecidableEq, Repr

def isName : Token → Bool
  | .word _ | .name _ => true
  | .literal _ | .symbol _ | .param _ => false

/-- The parts of a name with dots, and what follows it. -/
def tableName : List Token → Option (List Token × List Token)
  | t :: .symbol "." :: ts =>
      if isName t then (tableName ts).map fun p => (t :: p.1, p.2) else none
  | t :: ts => if isName t then some ([t], ts) else none
  | [] => none

def operand : Token → Option Operand
  | .word w => some (.column w)
  | .name w => some (.column w)
  | .literal s => some (.literal s)
  | .symbol _ | .param _ => none

def condition : List Token → Option (List Comparison)
  | [a, .symbol "=", b] => do return [⟨← operand a, ← operand b⟩]
  | a :: .symbol "=" :: b :: .word "or" :: ts => do
      let left ← operand a
      let right ← operand b
      let rest ← condition ts
      return ⟨left, right⟩ :: rest
  | _ => none

def select : List Token → Option Select
  | .word "select" :: .symbol "*" :: .word "from" :: ts =>
      match tableName ts with
      | some (table, .word "where" :: ts) => (condition ts).map fun c => ⟨table, c⟩
      | _ => none
  | _ => none

def parse (text : List Char) : Option Select := (lex text).bind select

/-- A text that is by itself the name of a table. -/
structure ValidTableName (text : List Char) (table : List Token) : Prop where
  closed : (Lexer.run {} text).Closed
  tableName : tableName (Lexer.run {} text).readTokens = some (table, [])

/-- What an operand is in a row with these values. -/
def Operand.eval (value : String → Option String) : Operand → Option String
  | .column s => value s
  | .literal s => some s

/-- The rows a `select` finds. -/
def Select.rows {ρ : Type} (value : ρ → String → Option String) (q : Select) (rows : List ρ) :
    List ρ :=
  rows.filter fun r => q.condition.any fun c =>
    match c.left.eval (value r), c.right.eval (value r) with
    | some a, some b => decide (a = b)
    | _, _ => false

/-! ## A query by one string -/

/-- The name of a table is read the same before what goes on without a dot. -/
theorem tableName_append {ts table rest : List Token} (h : tableName ts = some (table, []))
    (hrest : rest.head? ≠ some (.symbol ".")) : tableName (ts ++ rest) = some (table, rest) := by
  induction ts using tableName.induct generalizing table with
  | case1 t ts ht ih =>
      rw [tableName, if_pos ht] at h
      obtain ⟨p, hp, heq⟩ := Option.map_eq_some_iff.mp h
      obtain ⟨parts, after⟩ := p
      cases heq
      rw [List.cons_append, List.cons_append, tableName, if_pos ht, ih hp]
      rfl
  | case2 t ts ht =>
      rw [tableName, if_neg ht] at h
      cases h
  | case3 t ts hdot ht =>
      rw [tableName.eq_2 t ts hdot, if_pos ht] at h
      cases h
      have hdot' : ∀ ts', rest = .symbol "." :: ts' → False := by
        intro ts' heq
        exact hrest (by rw [heq]; rfl)
      rw [List.singleton_append, tableName.eq_2 t rest hdot', if_pos ht]
  | case4 t ts hdot ht =>
      rw [tableName.eq_2 t ts hdot, if_neg ht] at h
      cases h
  | case5 => cases h

/-- What a query by `name` reads before the string. -/
def beforeString (table : List Token) : List Token :=
  [.word "select", .symbol "*", .word "from"] ++
    (table ++ [.word "where", .word "name", .symbol "="])

theorem run_beforeString {table : List Char} {parts : List Token}
    (h : ValidTableName table parts) (cs : List Char) :
    Lexer.run {} ("Select * from ".toList ++ (table ++ (" where name = '".toList ++ cs))) =
      Lexer.run ⟨beforeString (Lexer.run {} table).readTokens, .quoted .single [],
        (Lexer.run {} table).asked⟩ cs := by
  have hopening : Lexer.run {} "Select * from ".toList =
      ({} : Lexer).after [.word "select", .symbol "*", .word "from"] := by
    decide +kernel
  have hwhere : ∀ k, Lexer.run ⟨[], .between, k⟩ "where name = '".toList =
      ⟨[.word "where", .word "name", .symbol "="], .quoted .single [], k⟩ := fun _ => rfl
  have hblank : " where name = '".toList ++ cs = ' ' :: ("where name = '".toList ++ cs) := rfl
  rw [Lexer.run_append, hopening, Lexer.run_after, Lexer.run_append, hblank,
    Lexer.run_blank h.closed, Lexer.run_append, hwhere, ← Lexer.run_after, ← Lexer.run_after]
  rfl

/-- What `select` makes of the tokens of a query by `name`, whatever follows the string. -/
theorem select_beforeString {ts parts more : List Token} {x : String}
    (h : tableName ts = some (parts, [])) :
    select (beforeString ts ++ .literal x :: more) =
      (condition (.word "name" :: .symbol "=" :: .literal x :: more)).map fun c => ⟨parts, c⟩ := by
  have htable : tableName (ts ++ (.word "where" :: .word "name" :: .symbol "=" ::
      .literal x :: more)) =
        some (parts, .word "where" :: .word "name" :: .symbol "=" :: .literal x :: more) :=
    tableName_append h (by simp)
  have htokens : beforeString ts ++ .literal x :: more =
      .word "select" :: .symbol "*" :: .word "from" ::
        (ts ++ (.word "where" :: .word "name" :: .symbol "=" :: .literal x :: more)) := by
    simp [beforeString]
  rw [htokens, select, htable]
  rfl

/-- The string comes first in what is compared. -/
theorem literal_of_condition {x y : String} {more : List Token}
    (h : condition (.word "name" :: .symbol "=" :: .literal x :: more) =
      some [⟨.column "name", .literal y⟩]) : x = y := by
  cases more with
  | nil =>
      cases h
      rfl
  | cons o more =>
      by_cases ho : o = .word "or"
      · subst ho
        rw [condition] at h
        simp only [operand, Option.bind_eq_bind, Option.bind_some] at h
        obtain ⟨rest, -, heq⟩ := Option.bind_eq_some_iff.mp h
        cases heq
        rfl
      · rw [condition.eq_3 _ (by simp) (by simp [ho])] at h
        cases h

/-- **A query by a text between quotes** is one `select` that compares the column with that text
exactly when the text has no quote. -/
theorem parse_by_string_iff {table : List Char} {parts : List Token}
    (h : ValidTableName table parts) (s : List Char) :
    parse ("Select * from ".toList ++ (table ++ (" where name = '".toList ++ (s ++ ['\''])))) =
        some ⟨parts, [⟨.column "name", .literal (String.ofList s)⟩]⟩ ↔ '\'' ∉ s := by
  rw [parse, lex, run_beforeString h]
  constructor
  · intro hparse
    obtain ⟨all, hall, hselect⟩ := Option.bind_eq_some_iff.mp hparse
    obtain ⟨x, ⟨more, rfl⟩, hx⟩ := Lexer.literal_of_finish hall
    rw [List.append_assoc, List.singleton_append, select_beforeString h.tableName] at hselect
    obtain ⟨c, hc, heq⟩ := Option.map_eq_some_iff.mp hselect
    cases heq
    exact hx (String.ofList_injective (literal_of_condition hc))
  · intro hplain
    rw [Lexer.finish_of_plain _ _ hplain, Option.bind_some, select_beforeString h.tableName]
    rfl

end Foundation.SqlSelect

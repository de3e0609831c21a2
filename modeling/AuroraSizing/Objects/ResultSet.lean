import AuroraSizing.Objects.Repository
import Mathlib.Data.List.Basic

/-!
# Reading a result set

Every read of several rows has the same shape: connect, prepare, bind, execute, then
`while (rs.next())` a row is read and added to a list, then everything is closed, all
inside one `try`. What is in the list when a call raises stays there; what differs is
what the `catch` takes and whether a row's own getters are in a `try` of their own.
-/

namespace AuroraSizing.ResultSet

/-- A call of the driver. -/
inductive Position where
  | connect
  | prepare
  | bind
  | execute
  /-- `rs.next()`, for the `i`-th time from 0. -/
  | next (i : ℕ)
  /-- The getters of the `i`-th row. -/
  | get (i : ℕ)
  /-- `rs.close()` and the end of the `try`. -/
  | close
deriving DecidableEq, Repr

/-- What the calls of one query raise. -/
abbrev Failures := Position → Option Throwable

def Failures.none : Failures := fun _ => Option.none

variable {ρ α : Type}

/-- What the calls before the first row raise. -/
def opened (fails : Failures) : Option Throwable :=
  [Position.connect, .prepare, .bind, .execute].findSome? fails

/-- One turn of the loop. `recover` is the `catch` around a row's getters, if there is one. -/
def readRow (fails : Failures) (recover : Throwable → Option α) (read : ρ → α) (i : ℕ) (row : ρ) :
    Except Throwable α :=
  match fails (.next i), fails (.get i) with
  | some e, _ => .error e
  | none, some e =>
      match recover e with
      | some a => .ok a
      | none => .error e
  | none, none => .ok (read row)

/-- `while (rs.next())`: the list, and what ended the loop early. -/
def readRows (fails : Failures) (recover : Throwable → Option α) (read : ρ → α) :
    ℕ → List ρ → List α × Option Throwable
  | i, [] => ([], fails (.next i))
  | i, row :: rows =>
      match readRow fails recover read i row with
      | .ok a =>
          let rest := readRows fails recover read (i + 1) rows
          (a :: rest.1, rest.2)
      | .error e => ([], some e)

/-- The `try`: the list, and what was raised. -/
def query (fails : Failures) (recover : Throwable → Option α) (read : ρ → α) (rows : List ρ) :
    List α × Option Throwable :=
  match opened fails with
  | some e => ([], some e)
  | none =>
      let result := readRows fails recover read 0 rows
      (result.1, result.2.or (fails .close))

/-- The `catch` around it, after which the list is returned. -/
def catching (caught : Throwable → Bool) (result : List α × Option Throwable) :
    Except Throwable (List α) :=
  match result.2 with
  | some e => if caught e then .ok result.1 else .error e
  | none => .ok result.1

/-- `catch (SQLException throwables)` -/
def isSQLException (e : Throwable) : Bool := e = .sqlException

/-- `catch (Exception ex)` -/
def isException (_ : Throwable) : Bool := true

/-! ## What is read -/

/-- No call up to the last row raises. -/
def Undisturbed (fails : Failures) (n : ℕ) : Prop :=
  opened fails = none ∧ ∀ i < n, fails (.next i) = none ∧ fails (.get i) = none

/-- The calls of a query with `n` rows, in order. -/
def positions (n : ℕ) : List Position :=
  [.connect, .prepare, .bind, .execute] ++
    (List.range n).flatMap (fun i => [.next i, .get i]) ++ [.next n, .close]

/-- What a call raises out of the loop. -/
def escaping (fails : Failures) (recover : Throwable → Option α) (p : Position) :
    Option Throwable :=
  match p with
  | .get _ => (fails p).filter fun e => (recover e).isNone
  | .connect | .prepare | .bind | .execute | .next _ | .close => fails p

/-- The first failure that leaves the loop. -/
def firstRaised (fails : Failures) (recover : Throwable → Option α) (n : ℕ) : Option Throwable :=
  (positions n).findSome? (escaping fails recover)

section Read

variable {fails : Failures} {recover : Throwable → Option α} {read : ρ → α}

theorem readRow_undisturbed {i : ℕ} (row : ρ)
    (h : fails (.next i) = none ∧ fails (.get i) = none) :
    readRow fails recover read i row = .ok (read row) := by
  unfold readRow
  rw [h.1, h.2]

/-- A row read otherwise is not what the row has. -/
theorem undisturbed_of_readRow {i : ℕ} {row : ρ}
    (hrecover : ∀ e a, recover e = some a → a ≠ read row)
    (h : readRow fails recover read i row = .ok (read row)) :
    fails (.next i) = none ∧ fails (.get i) = none := by
  unfold readRow at h
  split at h
  · cases h
  · split at h
    · rename_i hrecovered
      cases h
      exact absurd rfl (hrecover _ _ hrecovered)
    · cases h
  · rename_i hnext hget
    exact ⟨hnext, hget⟩

theorem readRows_eq_iff (fails : Failures) (i : ℕ) {rows : List ρ}
    (hrecover : ∀ e a, recover e = some a → ∀ row ∈ rows, a ≠ read row) :
    (readRows fails recover read i rows).1 = rows.map read ↔
      ∀ j < rows.length, fails (.next (i + j)) = none ∧ fails (.get (i + j)) = none := by
  induction rows generalizing i with
  | nil => exact iff_of_true rfl (fun j hj => absurd hj (Nat.not_lt_zero j))
  | cons row rows ih =>
      have htail := ih (i + 1) fun e a ha r hr => hrecover e a ha r (List.mem_cons_of_mem _ hr)
      have hhead : ∀ e a, recover e = some a → a ≠ read row :=
        fun e a ha => hrecover e a ha row List.mem_cons_self
      constructor
      · intro h j hj
        unfold readRows at h
        cases hrow : readRow fails recover read i row with
        | error e =>
            rw [hrow] at h
            cases h
        | ok a =>
            rw [hrow] at h
            simp only [List.map_cons, List.cons.injEq] at h
            cases j with
            | zero => exact undisturbed_of_readRow hhead (h.1 ▸ hrow)
            | succ j =>
                have hj' := htail.mp h.2 j (Nat.lt_of_succ_lt_succ hj)
                rwa [Nat.add_right_comm] at hj'
      · intro h
        have hzero : fails (.next i) = none ∧ fails (.get i) = none := h 0 (Nat.succ_pos _)
        have hrest : (readRows fails recover read (i + 1) rows).1 = rows.map read := by
          apply htail.mpr
          intro j hj
          rw [Nat.add_right_comm]
          exact h (j + 1) (Nat.succ_lt_succ hj)
        simp only [readRows, readRow_undisturbed row hzero, hrest, List.map_cons]

/-- **All rows are read exactly when** there are none or no call up to the last raises. -/
theorem query_eq_iff (fails : Failures) {rows : List ρ}
    (hrecover : ∀ e a, recover e = some a → ∀ row ∈ rows, a ≠ read row) :
    (query fails recover read rows).1 = rows.map read ↔
      rows = [] ∨ Undisturbed fails rows.length := by
  have hread := readRows_eq_iff fails 0 hrecover
  simp only [Nat.zero_add] at hread
  unfold query Undisturbed
  cases hopened : opened fails with
  | some e =>
      simp only [reduceCtorEq, false_and, or_false]
      constructor
      · intro h
        exact List.map_eq_nil_iff.mp h.symm
      · intro h
        rw [h, List.map_nil]
  | none =>
      simp only [true_and]
      rw [hread]
      refine ⟨Or.inr, ?_⟩
      rintro (rfl | h)
      · exact fun j hj => absurd hj (Nat.not_lt_zero j)
      · exact h

theorem readRows_raised (fails : Failures) (recover : Throwable → Option α) (read : ρ → α) (i : ℕ)
    (rows : List ρ) :
    (readRows fails recover read i rows).2 =
      ((List.range' i rows.length).flatMap (fun j => [Position.next j, .get j]) ++
        [Position.next (i + rows.length)]).findSome? (escaping fails recover) := by
  induction rows generalizing i with
  | nil =>
      simp [readRows, escaping]
  | cons row rows ih =>
      have hlength : i + (row :: rows).length = i + 1 + rows.length := by
        rw [List.length_cons]
        omega
      rw [hlength, List.length_cons, List.range'_succ, List.flatMap_cons, List.append_assoc,
        List.findSome?_append, ← ih (i + 1)]
      simp only [readRows, readRow, List.findSome?_cons, List.findSome?_nil, escaping]
      cases fails (.next i) with
      | some e => rfl
      | none =>
          cases fails (.get i) with
          | none => rfl
          | some e =>
              cases hrecovered : recover e with
              | some a => simp [Option.filter, hrecovered]
              | none => simp [Option.filter, hrecovered]

/-- What the `try` raises is the first failure that leaves the loop. -/
theorem query_raised (fails : Failures) (recover : Throwable → Option α) (read : ρ → α)
    (rows : List ρ) :
    (query fails recover read rows).2 = firstRaised fails recover rows.length := by
  unfold query firstRaised positions
  have hopened : [Position.connect, .prepare, .bind, .execute].findSome?
      (escaping fails recover) = opened fails := rfl
  rw [List.append_assoc, List.findSome?_append, hopened]
  cases opened fails with
  | some e => rfl
  | none =>
      have hread := readRows_raised fails recover read 0 rows
      rw [Nat.zero_add, ← List.range_eq_range'] at hread
      have hclose : [Position.next rows.length, .close] =
          [Position.next rows.length] ++ [.close] := rfl
      rw [hclose, ← List.append_assoc, List.findSome?_append, ← hread]
      simp only [List.findSome?_cons, List.findSome?_nil, escaping, Option.none_or]
      cases fails .close with
      | some e => rfl
      | none => rfl

/-- A row that is not read ends the list. -/
theorem readRows_prefix (fails : Failures) (read : ρ → α) (i : ℕ) (rows : List ρ) :
    (readRows fails (fun _ => none) read i rows).1 <+: rows.map read := by
  induction rows generalizing i with
  | nil => exact List.prefix_refl _
  | cons row rows ih =>
      simp only [readRows, readRow, List.map_cons]
      cases fails (.next i) with
      | some e => exact List.nil_prefix
      | none =>
          cases fails (.get i) with
          | some e => exact List.nil_prefix
          | none => exact List.prefix_cons_inj (read row) |>.mpr (ih (i + 1))

theorem query_prefix (fails : Failures) (read : ρ → α) (rows : List ρ) :
    (query fails (fun _ => none) read rows).1 <+: rows.map read := by
  unfold query
  cases opened fails with
  | some e => exact List.nil_prefix
  | none => exact readRows_prefix fails read 0 rows

/-- A query that is not opened does not look at the rows. -/
theorem query_of_opened {e : Throwable} (h : opened fails = some e) (rows : List ρ) :
    query fails recover read rows = ([], some e) := by
  unfold query
  rw [h]

/-- The query answers with all its rows: nothing is raised before the last, and what is
raised after it is caught. -/
structure Complete (fails : Failures) (recover : Throwable → Option α) (caught : Throwable → Bool)
    (n : ℕ) : Prop where
  undisturbed : n = 0 ∨ Undisturbed fails n
  caught : ∀ e, firstRaised fails recover n = some e → caught e = true

theorem complete_none (recover : Throwable → Option α) (caught : Throwable → Bool) (n : ℕ) :
    Complete Failures.none recover caught n := by
  have hraised : firstRaised Failures.none recover n = none := by
    unfold firstRaised
    rw [List.findSome?_eq_none_iff]
    intro p _
    cases p <;> rfl
  constructor
  · exact Or.inr ⟨rfl, fun _ _ => ⟨rfl, rfl⟩⟩
  · intro e he
    rw [hraised] at he
    cases he

/-- **A method answers all rows exactly when** its query is complete. -/
theorem catching_query_iff {caught : Throwable → Bool} {rows : List ρ}
    (hrecover : ∀ e a, recover e = some a → ∀ row ∈ rows, a ≠ read row) :
    catching caught (query fails recover read rows) = .ok (rows.map read) ↔
      Complete fails recover caught rows.length := by
  have hread := query_eq_iff fails hrecover
  rw [← List.length_eq_zero_iff] at hread
  have hraised := query_raised fails recover read rows
  unfold catching
  constructor
  · intro h
    split at h
    · rename_i e he
      split at h
      · rename_i hcaught
        refine ⟨hread.mp (Except.ok.inj h), ?_⟩
        intro e' he'
        rw [← hraised, he] at he'
        cases he'
        exact hcaught
      · cases h
    · rename_i hnone
      refine ⟨hread.mp (Except.ok.inj h), ?_⟩
      intro e' he'
      rw [← hraised, hnone] at he'
      cases he'
  · intro h
    rw [← hread.mpr h.undisturbed]
    split
    · rename_i e he
      rw [hraised] at he
      rw [if_pos (h.caught e he)]
    · rfl

/-- An answer is a prefix of the rows. -/
theorem catching_query_prefix {caught : Throwable → Bool} {rows : List ρ} {items : List α}
    (h : catching caught (query fails (fun _ => none) read rows) = .ok items) :
    items <+: rows.map read := by
  have hprefix := query_prefix fails read rows
  unfold catching at h
  split at h
  · split at h
    · cases h
      exact hprefix
    · cases h
  · cases h
    exact hprefix

end Read

end AuroraSizing.ResultSet

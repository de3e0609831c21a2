import Mathlib.Data.List.Basic
import Mathlib.Tactic.Ring

/-!
# A buffer that is sent and kept

Items are put in a buffer, and a flush sends what is in it. When a flush does not clear the
buffer, the flushes together send every item as often as there are flushes behind it. So they
send each item once exactly when no item has two.
-/

namespace Foundation.Outbox

variable {α : Type}

inductive Call (α : Type) where
  | put (a : α)
  | flush
deriving DecidableEq, Repr

def isFlush : Call α → Bool
  | .put _ => false
  | .flush => true

/-- What each flush sends, the buffer holding `b` so far. -/
def flushes (b : List α) : List (Call α) → List (List α)
  | [] => []
  | .put a :: calls => flushes (b ++ [a]) calls
  | .flush :: calls => b :: flushes b calls

/-- The items with a flush behind them. -/
def covered : List (Call α) → List α
  | [] => []
  | .put a :: calls => if calls.any isFlush then a :: covered calls else covered calls
  | .flush :: calls => covered calls

/-- No item has two flushes behind it. -/
def FlushedOnce (calls : List (Call α)) : Prop :=
  ∀ before a after, calls = before ++ .put a :: after → after.countP isFlush ≤ 1

theorem flushedOnce_cons {c : Call α} {calls : List (Call α)} :
    FlushedOnce (c :: calls) ↔
      (∀ a, c = .put a → calls.countP isFlush ≤ 1) ∧ FlushedOnce calls := by
  constructor
  · intro h
    refine ⟨?_, ?_⟩
    · rintro a rfl
      exact h [] a calls rfl
    · rintro before a after rfl
      exact h (c :: before) a after rfl
  · rintro ⟨hhead, htail⟩ before a after heq
    cases before with
    | nil =>
        cases heq
        exact hhead a rfl
    | cons c' before =>
        cases heq
        exact htail before a after rfl

/-- Without a flush nothing is covered and nothing sent. -/
theorem of_no_flush {calls : List (Call α)} (h : calls.countP isFlush = 0) (b : List α) :
    (flushes b calls).flatten = [] ∧ covered calls = [] := by
  induction calls generalizing b with
  | nil => exact ⟨rfl, rfl⟩
  | cons c calls ih =>
      cases c with
      | put a =>
          rw [List.countP_cons_of_neg (by simp [isFlush])] at h
          have hany : calls.any isFlush = false := by
            rw [List.any_eq_false]
            exact List.countP_eq_zero.mp h
          obtain ⟨hflushes, hcovered⟩ := ih h (b ++ [a])
          refine ⟨hflushes, ?_⟩
          rw [covered, hany, if_neg Bool.false_ne_true, hcovered]
      | flush =>
          rw [List.countP_cons_of_pos rfl] at h
          cases h

/-- An item in the buffer is sent with every flush; the others as often as they are behind it. -/
theorem length_flushes (b : List α) (calls : List (Call α)) :
    (flushes b calls).flatten.length =
      b.length * calls.countP isFlush + (flushes [] calls).flatten.length := by
  induction calls generalizing b with
  | nil => simp [flushes]
  | cons c calls ih =>
      cases c with
      | put a =>
          have hcount : (Call.put a :: calls).countP isFlush = calls.countP isFlush :=
            List.countP_cons_of_neg (by simp [isFlush])
          rw [flushes, flushes, hcount, ih (b ++ [a]), ih ([] ++ [a]), List.length_append,
            List.length_append, List.length_singleton, List.length_nil]
          ring
      | flush =>
          have hcount : (Call.flush :: calls).countP isFlush = calls.countP isFlush + 1 :=
            List.countP_cons_of_pos rfl
          rw [flushes, flushes, hcount, List.flatten_cons, List.flatten_cons, List.length_append,
            List.length_append, ih b, List.length_nil]
          ring

/-- Every covered item is sent at least once. -/
theorem length_covered_le (calls : List (Call α)) :
    (covered calls).length ≤ (flushes [] calls).flatten.length ∧
      ((covered calls).length = (flushes [] calls).flatten.length → FlushedOnce calls) := by
  induction calls with
  | nil =>
      refine ⟨Nat.le_refl _, fun _ before a after heq => ?_⟩
      cases before <;> cases heq
  | cons c calls ih =>
      obtain ⟨hle, honce⟩ := ih
      cases c with
      | put a =>
          have hlength := length_flushes ([] ++ [a]) calls
          rw [List.nil_append, List.length_singleton, Nat.one_mul] at hlength
          rw [flushes, List.nil_append, hlength, flushedOnce_cons]
          by_cases hany : calls.any isFlush = true
          · have hpos : 0 < calls.countP isFlush := by
              rw [List.countP_pos_iff]
              exact List.any_eq_true.mp hany
            rw [covered, if_pos hany, List.length_cons]
            refine ⟨by omega, fun heq => ⟨fun _ _ => by omega, honce (by omega)⟩⟩
          · rw [covered, if_neg hany]
            refine ⟨by omega, fun heq => ⟨fun _ _ => by omega, honce (by omega)⟩⟩
      | flush =>
          rw [flushes, covered, List.flatten_cons, List.nil_append, flushedOnce_cons]
          exact ⟨hle, fun heq => ⟨fun _ h => (nomatch h), honce heq⟩⟩

/-- With one flush at most behind every item, the one flush sends what is covered. -/
theorem flatten_flushes {calls : List (Call α)} (h : FlushedOnce calls) (b : List α)
    (hb : b = [] ∨ calls.countP isFlush ≤ 1) :
    (flushes b calls).flatten = (if calls.any isFlush then b else []) ++ covered calls := by
  induction calls generalizing b with
  | nil => rfl
  | cons c calls ih =>
      obtain ⟨hhead, htail⟩ := flushedOnce_cons.mp h
      cases c with
      | put a =>
          have hcount := hhead a rfl
          rw [flushes, ih htail (b ++ [a]) (.inr hcount), List.any_cons, isFlush, Bool.false_or,
            covered]
          split
          · rw [List.append_assoc, List.singleton_append]
          · rfl
      | flush =>
          rw [List.countP_cons_of_pos rfl] at hb
          rw [flushes, List.flatten_cons, List.any_cons, isFlush, Bool.true_or, if_pos rfl, covered]
          rcases hb with rfl | hcount
          · rw [ih htail [] (.inl rfl)]
            simp
          · have hnone : calls.countP isFlush = 0 := by omega
            obtain ⟨hflushes, hcovered⟩ := of_no_flush hnone b
            rw [hflushes, hcovered]

/-- **The flushes send each covered item once, in order, exactly when** no item has two flushes
behind it. -/
theorem flatten_flushes_iff (calls : List (Call α)) :
    (flushes [] calls).flatten = covered calls ↔ FlushedOnce calls := by
  constructor
  · intro h
    exact (length_covered_le calls).2 (congrArg List.length h).symm
  · intro h
    rw [flatten_flushes h [] (.inl rfl)]
    simp

end Foundation.Outbox

import Mathlib.Data.List.Nodup

/-!
# Windows of a list

What a query with a limit and an offset sees of a list. Windows side by side are the list from the
first of them on; without duplicates an element is in the windows around its position.
-/

namespace Foundation.Windows

variable {α : Type*} {n : ℕ} {L : List α}

def window (n : ℕ) (L : List α) (offset : ℕ) : List α := (L.drop offset).take n

theorem length_window_le {offset : ℕ} : (window n L offset).length ≤ n := List.length_take_le ..

theorem window_of_length_le {offset : ℕ} (h : L.length ≤ offset) : window n L offset = [] := by
  rw [window, List.drop_eq_nil_of_le h, List.take_nil]

theorem mem_window_iff {offset : ℕ} {a : α} :
    a ∈ window n L offset ↔ ∃ k, offset ≤ k ∧ k < offset + n ∧ L[k]? = some a := by
  rw [window, List.mem_iff_getElem?]
  constructor
  · rintro ⟨i, hi⟩
    rw [List.getElem?_take] at hi
    split at hi
    case isTrue hlt =>
      rw [List.getElem?_drop] at hi
      exact ⟨offset + i, by omega, by omega, hi⟩
    case isFalse => cases hi
  · rintro ⟨k, hle, hlt, hk⟩
    refine ⟨k - offset, ?_⟩
    rw [List.getElem?_take_of_lt (by omega), List.getElem?_drop, Nat.add_sub_cancel' hle]
    exact hk

/-- The windows an element is in are those around its one position. -/
theorem getElem_mem_window_iff (hL : L.Nodup) (n offset : ℕ) {k : ℕ} (hk : k < L.length) :
    L[k] ∈ window n L offset ↔ offset ≤ k ∧ k < offset + n := by
  rw [mem_window_iff]
  constructor
  · rintro ⟨i, hle, hlt, hi⟩
    obtain ⟨hlength, heq⟩ := List.getElem?_eq_some_iff.mp hi
    obtain rfl : i = k := (hL.getElem_inj_iff).mp heq
    exact ⟨hle, hlt⟩
  · rintro ⟨hle, hlt⟩
    exact ⟨k, hle, hlt, List.getElem?_eq_getElem hk⟩

theorem flatten_windows (n : ℕ) (L : List α) (start m : ℕ) :
    ((List.range m).map fun k => window n L (start + n * k)).flatten =
      (L.drop start).take (n * m) := by
  induction m with
  | zero => simp
  | succ m ih =>
      rw [List.range_succ, List.map_append, List.flatten_append, ih, List.map_singleton,
        List.flatten_singleton, window, ← List.drop_drop, Nat.mul_succ, List.take_add]

end Foundation.Windows

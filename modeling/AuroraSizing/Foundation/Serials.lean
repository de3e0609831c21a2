import Mathlib.Data.List.Induction

/-!
# Serial numbers and full batches

The items of a list are numbered from one on. What is collected of them is handed over whenever
there are `n` of it; the last items stay behind unless their number is a multiple of `n`.
-/

namespace Foundation.Serials

variable {α : Type*}

/-- The items from serial `s` on, each with its number. -/
def fromSerial (s : ℕ) (items : List α) : List (α × ℕ) := (items.zipIdx 1).filter (s ≤ ·.2)

@[simp] theorem fromSerial_nil (s : ℕ) : fromSerial s ([] : List α) = [] := rfl

theorem fromSerial_concat (s : ℕ) (items : List α) (a : α) :
    fromSerial s (items ++ [a]) =
      fromSerial s items ++ if s ≤ items.length + 1 then [(a, items.length + 1)] else [] := by
  rw [fromSerial, List.zipIdx_append, List.filter_append, Nat.add_comm 1]
  congr 1
  by_cases hs : s ≤ items.length + 1
  · simp [hs]
  · simp [hs]

theorem length_fromSerial {s : ℕ} (hs : 1 ≤ s) (items : List α) :
    (fromSerial s items).length = items.length + 1 - s := by
  induction items using List.reverseRecOn with
  | nil =>
      show 0 = 0 + 1 - s
      omega
  | append_singleton items a ih =>
      rw [fromSerial_concat, List.length_append, ih, List.length_append, List.length_singleton]
      split
      case isTrue =>
        rw [List.length_singleton]
        omega
      case isFalse =>
        rw [List.length_nil]
        omega

theorem serial_le {s : ℕ} {items : List α} {p : α × ℕ} (hp : p ∈ fromSerial s items) :
    p.2 ≤ items.length := by
  have hlt := List.snd_lt_of_mem_zipIdx (List.mem_filter.mp hp).1
  omega

/-- Of the items `sent` has gone out in batches of `n`. -/
structure Cut (n : ℕ) (items sent rest : List α) : Prop where
  split : sent ++ rest = items
  full : n ∣ sent.length
  short : rest.length < n

variable {n : ℕ} {items sent rest : List α}

theorem Cut.keep (h : Cut n items sent rest) (a : α) (hshort : (rest ++ [a]).length < n) :
    Cut n (items ++ [a]) sent (rest ++ [a]) :=
  ⟨by rw [← List.append_assoc, h.split], h.full, hshort⟩

theorem Cut.send (h : Cut n items sent rest) (a : α) (hfull : n ≤ (rest ++ [a]).length) :
    Cut n (items ++ [a]) (sent ++ (rest ++ [a])) [] := by
  have hshort := h.short
  have hlength : (rest ++ [a]).length = n := by
    rw [List.length_append, List.length_singleton] at hfull ⊢
    omega
  refine ⟨?_, ?_, ?_⟩
  · rw [List.append_nil, ← List.append_assoc, h.split]
  · rw [List.length_append, hlength]
    exact Nat.dvd_add h.full (Nat.dvd_refl n)
  · show 0 < n
    omega

theorem Cut.rest_eq_nil_iff (h : Cut n items sent rest) : rest = [] ↔ n ∣ items.length := by
  have hlength : items.length = sent.length + rest.length := by
    rw [← h.split, List.length_append]
  rw [hlength, Nat.dvd_add_right h.full]
  constructor
  · intro hnil
    rw [hnil]
    exact Nat.dvd_zero n
  · intro hdvd
    exact List.eq_nil_of_length_eq_zero (Nat.eq_zero_of_dvd_of_lt hdvd h.short)

end Foundation.Serials

import Mathlib.Algebra.BigOperators.Group.Finset.Piecewise
import Mathlib.Algebra.Order.BigOperators.Group.Finset
import Mathlib.Data.Int.CardIntervalMod

/-!
# Cursors that go round

A cursor over `n` slots starts at the first and moves on with every pick. One cursor gives the
slots picks that differ by at most one. Several cursors that all start at the first slot favour
it together: their picks differ by at most one exactly when all of them but one have gone round a
whole number of times.
-/

namespace Foundation.RoundRobin

/-- How often slot `k` is among the first `m` picks. -/
def picks (n m k : ℕ) : ℕ := Nat.count (fun j => j % n = k) m

@[simp] theorem picks_zero (n k : ℕ) : picks n 0 k = 0 := Nat.count_zero _

/-- The next pick is of the slot the cursor is at. -/
theorem picks_succ (n m k : ℕ) : picks n (m + 1) k = picks n m k + if m % n = k then 1 else 0 :=
  Nat.count_succ _ _

/-- The cursor behind a pick. -/
theorem succ_mod {n m : ℕ} (hn : 0 < n) :
    (if m % n + 1 = n then 0 else m % n + 1) = (m + 1) % n := by
  have hlt := Nat.mod_lt m hn
  rw [← Nat.mod_add_mod m n 1]
  split
  case isTrue hend => rw [hend, Nat.mod_self]
  case isFalse hend => rw [Nat.mod_eq_of_lt (show m % n + 1 < n by omega)]

theorem picks_eq {n k : ℕ} (hk : k < n) (m : ℕ) :
    picks n m k = m / n + if k < m % n then 1 else 0 := by
  have hcount := Nat.count_modEq_card m (show 0 < n by omega) k
  rw [Nat.mod_eq_of_lt hk] at hcount
  rw [picks, ← hcount]
  congr 1
  funext j
  rw [Nat.ModEq, Nat.mod_eq_of_lt hk]

variable {ι : Type*}

/-- **The picks of several cursors differ by at most one exactly when** at most one of them is
not back at the first slot. -/
theorem balanced_iff {n : ℕ} (hn : 0 < n) (s : Finset ι) (m : ι → ℕ) :
    (∀ j < n, ∀ k < n, ∑ i ∈ s, picks n (m i) j ≤ ∑ i ∈ s, picks n (m i) k + 1) ↔
      ∀ a ∈ s, ∀ b ∈ s, m a % n ≠ 0 → m b % n ≠ 0 → a = b := by
  have hcard : (∀ a ∈ s, ∀ b ∈ s, m a % n ≠ 0 → m b % n ≠ 0 → a = b) ↔
      ∑ i ∈ s, (if 0 < m i % n then 1 else 0) ≤ 1 := by
    rw [← Finset.card_filter, Finset.card_le_one]
    simp only [Finset.mem_filter, Nat.pos_iff_ne_zero]
    constructor
    · rintro h a ⟨ha, ha'⟩ b ⟨hb, hb'⟩
      exact h a ha b hb ha' hb'
    · intro h a ha b hb ha' hb'
      exact h a ⟨ha, ha'⟩ b ⟨hb, hb'⟩
  have hsum : ∀ k < n, ∑ i ∈ s, picks n (m i) k =
      ∑ i ∈ s, m i / n + ∑ i ∈ s, (if k < m i % n then 1 else 0) := by
    intro k hk
    rw [← Finset.sum_add_distrib]
    exact Finset.sum_congr rfl fun i _ => picks_eq hk (m i)
  rw [hcard]
  constructor
  · intro h
    have hends := h 0 hn (n - 1) (by omega)
    have hlast : ∑ i ∈ s, (if n - 1 < m i % n then 1 else 0) = 0 := by
      refine Finset.sum_eq_zero fun i _ => if_neg ?_
      have hlt := Nat.mod_lt (m i) hn
      omega
    rw [hsum 0 hn, hsum (n - 1) (by omega), hlast] at hends
    omega
  · intro h j hj k hk
    have hfirst : ∑ i ∈ s, (if j < m i % n then 1 else 0) ≤
        ∑ i ∈ s, (if 0 < m i % n then 1 else 0) := by
      refine Finset.sum_le_sum fun i _ => ?_
      split_ifs with hlt hpos
      · exact Nat.le_refl _
      · omega
      · exact Nat.zero_le _
      · exact Nat.le_refl _
    rw [hsum j hj, hsum k hk]
    omega

end Foundation.RoundRobin

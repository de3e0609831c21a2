import Mathlib.Algebra.BigOperators.Group.List.Basic
import Mathlib.Algebra.GroupWithZero.Nat
import Mathlib.Data.List.Sort

/-!
# The heaviest elements of a list

A choice of `n` elements is the first `n` of some permutation. `heaviest` is one choice
that weighs at least as much as any other, so a bound on every choice is a bound on this
one (`bounds_all_iff`). The argument goes by a threshold between what is taken and what is
left.
-/

namespace Foundation.Heaviest

variable {α : Type*} (weight : α → ℕ)

/-- The `n` heaviest elements, in descending order. -/
def heaviest (n : ℕ) (xs : List α) : List α :=
  (xs.mergeSort fun a b => weight b ≤ weight a).take n

variable {weight} {xs ys zs : List α}

/-- Any `n` elements weigh no more than `n` thresholds and every excess. -/
theorem sum_take_le (t : ℕ) (ys : List α) (n : ℕ) :
    ((ys.take n).map weight).sum ≤ n * t + (ys.map fun a => weight a - t).sum := by
  induction ys generalizing n with
  | nil => simp
  | cons a ys ih =>
      cases n with
      | zero => simp
      | succ n =>
          have hrest := ih n
          simp only [List.take_succ_cons, List.map_cons, List.sum_cons, Nat.succ_mul]
          omega

/-- Where the threshold parts the list after `n` elements, these weigh exactly that. -/
theorem sum_take_eq {t : ℕ} {zs : List α} {n : ℕ} (hn : n ≤ zs.length)
    (habove : ∀ a ∈ zs.take n, t ≤ weight a) (hbelow : ∀ a ∈ zs.drop n, weight a ≤ t) :
    ((zs.take n).map weight).sum = n * t + (zs.map fun a => weight a - t).sum := by
  induction zs generalizing n with
  | nil =>
      obtain rfl : n = 0 := by simpa using hn
      simp
  | cons a zs ih =>
      cases n with
      | zero =>
          have hzero : ∀ b ∈ (a :: zs).map fun a => weight a - t, b = 0 := by
            intro b hb
            obtain ⟨c, hc, rfl⟩ := List.mem_map.mp hb
            exact Nat.sub_eq_zero_of_le (hbelow c hc)
          rw [List.sum_eq_zero hzero]
          simp
      | succ n =>
          have hrest := ih (Nat.le_of_succ_le_succ hn)
            (fun b hb => habove b (List.mem_cons_of_mem _ hb)) hbelow
          have hfirst := habove a List.mem_cons_self
          simp only [List.take_succ_cons, List.map_cons, List.sum_cons, Nat.succ_mul, hrest]
          omega

/-- No choice weighs more than the first elements in descending order. -/
theorem sum_take_le_sorted (hsorted : zs.Pairwise fun a b => weight b ≤ weight a)
    (hperm : ys.Perm zs) (n : ℕ) :
    ((ys.take n).map weight).sum ≤ ((zs.take n).map weight).sum := by
  cases hdrop : zs.drop n with
  | nil =>
      -- everything is taken
      have hlength : zs.length ≤ n := List.drop_eq_nil_iff.mp hdrop
      rw [List.take_of_length_le hlength, List.take_of_length_le (hperm.length_eq ▸ hlength)]
      exact Nat.le_of_eq (hperm.map weight).sum_eq
  | cons b rest =>
      have hn : n ≤ zs.length := by
        by_contra hlong
        rw [List.drop_of_length_le (by omega)] at hdrop
        cases hdrop
      rw [← List.take_append_drop n zs, List.pairwise_append, hdrop] at hsorted
      rcases hsorted with ⟨-, htail, hacross⟩
      have habove : ∀ a ∈ zs.take n, weight b ≤ weight a :=
        fun a ha => hacross a ha b List.mem_cons_self
      have hbelow : ∀ a ∈ zs.drop n, weight a ≤ weight b := by
        intro a ha
        rw [hdrop, List.mem_cons] at ha
        rcases ha with rfl | ha
        · exact Nat.le_refl _
        · exact (List.pairwise_cons.mp htail).1 a ha
      have hle : ((ys.take n).map weight).sum ≤ _ := sum_take_le (weight b) ys n
      rwa [(hperm.map fun a => weight a - weight b).sum_eq, ← sum_take_eq hn habove hbelow] at hle

theorem pairwise_mergeSort_weight (xs : List α) :
    (xs.mergeSort fun a b => weight b ≤ weight a).Pairwise fun a b => weight b ≤ weight a := by
  have htrans : ∀ a b c : α, decide (weight b ≤ weight a) = true →
      decide (weight c ≤ weight b) = true → decide (weight c ≤ weight a) = true := by
    intro a b c hab hbc
    simp only [decide_eq_true_eq] at hab hbc ⊢
    exact hbc.trans hab
  have htotal : ∀ a b : α,
      (decide (weight b ≤ weight a) || decide (weight a ≤ weight b)) = true := by
    intro a b
    simpa using Nat.le_total (weight b) (weight a)
  have hsorted := @List.pairwise_mergeSort _ (fun a b => decide (weight b ≤ weight a)) htrans
    htotal xs
  exact hsorted.imp of_decide_eq_true

/-- A bound on every choice of `n` elements is a bound on the heaviest. -/
theorem bounds_all_iff (xs : List α) (n bound : ℕ) :
    (∀ ys : List α, ys.Perm xs → ((ys.take n).map weight).sum ≤ bound) ↔
      ((heaviest weight n xs).map weight).sum ≤ bound := by
  constructor
  · intro h
    exact h _ (List.mergeSort_perm xs _)
  · intro h ys hperm
    have hperm' := hperm.trans (List.mergeSort_perm xs fun a b => weight b ≤ weight a).symm
    exact (sum_take_le_sorted (pairwise_mergeSort_weight xs) hperm' n).trans h

end Foundation.Heaviest

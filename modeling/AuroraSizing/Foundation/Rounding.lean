import Mathlib.Data.Rat.Floor
import Mathlib.Order.Monotone.Defs
import Mathlib.Tactic.Linarith

/-!
# Rounding

`roundEven` gives the nearest integer, and the even one of two that are as near. The result of an
operation on floats is the exact one, rounded to a float; all that is used is that the rounding
keeps the order, keeps what is a float already, and keeps zero.
-/

namespace Foundation.Rounding

def roundEven (q : ℚ) : ℤ :=
  if q - ⌊q⌋ < 1 / 2 then ⌊q⌋
  else if 1 / 2 < q - ⌊q⌋ then ⌊q⌋ + 1
  else if ⌊q⌋ % 2 = 0 then ⌊q⌋ else ⌊q⌋ + 1

theorem floor_le_roundEven (q : ℚ) : ⌊q⌋ ≤ roundEven q := by
  rw [roundEven]
  split_ifs
  · exact le_refl _
  · omega
  · exact le_refl _
  · omega

theorem roundEven_le_floor (q : ℚ) : roundEven q ≤ ⌊q⌋ + 1 := by
  rw [roundEven]
  split_ifs
  · omega
  · exact le_refl _
  · omega
  · exact le_refl _

theorem roundEven_le {q r : ℚ} (hqr : q ≤ r) : roundEven q ≤ roundEven r := by
  rcases lt_or_eq_of_le (Int.floor_mono hqr) with hlt | heq
  · calc roundEven q ≤ ⌊q⌋ + 1 := roundEven_le_floor q
      _ ≤ ⌊r⌋ := hlt
      _ ≤ roundEven r := floor_le_roundEven r
  · -- the same floor: the fractions decide
    by_cases hlow : q - ⌊q⌋ < 1 / 2
    · calc roundEven q = ⌊q⌋ := if_pos hlow
        _ = ⌊r⌋ := heq
        _ ≤ roundEven r := floor_le_roundEven r
    · by_cases hhigh : 1 / 2 < r - ⌊r⌋
      · calc roundEven q ≤ ⌊q⌋ + 1 := roundEven_le_floor q
          _ = ⌊r⌋ + 1 := by rw [heq]
          _ = roundEven r := by rw [roundEven, if_neg (not_lt.mpr (le_of_lt hhigh)), if_pos hhigh]
      · have hsame : q = r := by
          rw [heq] at hlow
          linarith
        rw [hsame]

/-- The rounding to a float. -/
structure Floats where
  fl : ℚ → ℚ
  mono : Monotone fl
  idem : ∀ q, fl (fl q) = fl q
  zero : fl 0 = 0

namespace Floats

variable (floats : Floats)

theorem fl_nonneg {q : ℚ} (hq : 0 ≤ q) : 0 ≤ floats.fl q := by
  have h := floats.mono hq
  rwa [floats.zero] at h

/-- A float and something added to it. -/
theorem fl_le_fl_add (q : ℚ) {r : ℚ} (hr : 0 ≤ r) : floats.fl q ≤ floats.fl (floats.fl q + r) := by
  have h := floats.mono (show floats.fl q ≤ floats.fl q + r by linarith)
  rwa [floats.idem] at h

/-- Numbers that all are floats. -/
def exact : Floats := ⟨id, monotone_id, fun _ => rfl, rfl⟩

end Floats

end Foundation.Rounding

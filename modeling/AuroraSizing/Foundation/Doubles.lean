import Mathlib.Data.Rat.Floor

/-!
# Doubles

The number that the 64 bits of a double stand for: a sign, eleven bits of an exponent and 52
of a fraction. `none` is an infinity or no number.
-/

namespace Foundation.Doubles

def exponent (bits : BitVec 64) : ℕ := bits.toNat / 2 ^ 52 % 2 ^ 11

def fraction (bits : BitVec 64) : ℕ := bits.toNat % 2 ^ 52

/-- The fraction has a leading one unless the exponent is zero. -/
def magnitude (bits : BitVec 64) : ℚ :=
  if exponent bits = 0 then fraction bits * 2 ^ (-1074 : ℤ)
  else (2 ^ 52 + fraction bits) * 2 ^ ((exponent bits : ℤ) - 1075)

def value (bits : BitVec 64) : Option ℚ :=
  if exponent bits = 2047 then none
  else some (if bits.msb then -magnitude bits else magnitude bits)

end Foundation.Doubles

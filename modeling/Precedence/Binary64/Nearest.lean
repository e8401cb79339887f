import Precedence.Binary64.Basic

/-!
# Rounding to the nearest double

A non-negative fraction is rounded to the nearest size, and a fraction halfway between two sizes
goes to the one of even rank. The computation is exact: the fraction is written in units, the
number of binary digits of its whole part says which step holds there, and the quotient by that
step is rounded half to even. Because the blocks of ranks join without a gap, a quotient that
rounds up to the end of its block is already the first rank of the next, and one that rounds up
past the last finite rank is already infinity's.
-/

namespace Precedence

/-- The whole number nearest to `num / den`, the even one of two equally near. -/
def roundHalfEven (num den : Nat) : Nat :=
  let q := num / den
  let r := num % den
  if 2 * r < den then q
  else if den < 2 * r then q + 1
  else if q % 2 = 0 then q
  else q + 1

theorem roundHalfEven_mul (n : Nat) {den : Nat} (h : 0 < den) : roundHalfEven (n * den) den = n := by
  simp [roundHalfEven, Nat.mul_div_cancel _ h, h]

namespace Magnitude

/-- The size nearest to `num / den`, for a positive `den`. -/
def nearest (num den : Nat) : Magnitude :=
  let num := num <<< 1074
  let doublings := Nat.log2 (num / den) - 52
  ofRank (doublings * blockSize + roundHalfEven num (den <<< doublings))

end Magnitude

/-- A decimal fraction: `digits` times ten to the `exponent`. -/
structure Decimal where
  digits : Nat
  exponent : Int
deriving DecidableEq, Repr, Inhabited

namespace Decimal

/-- The size nearest to a decimal fraction. Exponents that no digits can bring back into range
are settled first, so that no power of ten larger than the text warrants is ever formed: ten to
the 401 exceeds every finite size, and since eight is less than ten, a fraction of `b` binary
digits over a power of ten of exponent `n` is below `2 ^ (b - 3 n)`, which is under half the
least size once `b + 1100 < 3 n`. -/
def nearest (d : Decimal) : Magnitude :=
  if d.digits = 0 then .zero
  else if 400 < d.exponent then .infinity
  else if d.exponent < 0 ∧ d.digits.log2 + 1101 < 3 * (-d.exponent).toNat then .zero
  else .nearest (d.digits * Nat.pow 10 d.exponent.toNat) (Nat.pow 10 (-d.exponent).toNat)

end Decimal

end Precedence

import Mathlib.Algebra.Group.Nat.Defs
import Precedence.Binary64.Printer

/-!
# Doubles read back from their exact value

The value of a double is a whole number of units, and the double nearest to a value that is one is
that double itself (`Magnitude.nearest_eq`): the number of binary digits of the value tells the
step, and counted in that step the value is whole. So the exact value of a double, as a decimal
fraction, reads back as the double, and with it whatever a double is written as
(`Magnitude.nearest_shortest`).
-/

namespace Precedence

/-- A fraction whose exponent is within reach is rounded as the fraction it is. -/
theorem Decimal.nearest_eq {d : Decimal} (hdigits : d.digits ≠ 0) (hlarge : d.exponent ≤ 400)
    (hsmall : 3 * (-d.exponent).toNat ≤ d.digits.log2 + 1101) :
    d.nearest =
      .nearest (d.digits * Nat.pow 10 d.exponent.toNat) (Nat.pow 10 (-d.exponent).toNat) := by
  rw [Decimal.nearest, if_neg hdigits, if_neg (Int.not_lt.mpr hlarge),
    if_neg fun h => absurd hsmall (Nat.not_le.mpr h.2)]

namespace Magnitude

variable {m : Magnitude}

/-- The two parts of a rank: how often the step has doubled, and the steps. -/
theorem rank_eq (m : Magnitude) : m.rank = m.doublings * blockSize + m.steps := by
  unfold doublings steps
  split
  · rename_i h
    rw [Nat.div_eq_of_lt h]
    omega
  · rename_i h
    have hone : 1 ≤ m.rank / blockSize :=
      (Nat.one_le_div_iff (by decide)).mpr (Nat.le_of_not_lt h)
    calc m.rank = m.rank / blockSize * blockSize + m.rank % blockSize := (Nat.div_add_mod' ..).symm
      _ = (m.rank / blockSize - 1 + 1) * blockSize + m.rank % blockSize := by
        rw [Nat.sub_add_cancel hone]
      _ = _ := by rw [Nat.succ_mul, Nat.add_assoc]

/-- A size has fewer than `2 ^ 53` steps, and where the step has doubled, at least half of that. -/
theorem steps_bounds (m : Magnitude) :
    m.steps < 2 ^ 53 ∧ (m.doublings = 0 ∨ 2 ^ 52 ≤ m.steps) := by
  have hblock : blockSize = 2 ^ 52 := rfl
  unfold doublings steps
  split
  · rename_i h
    rw [Nat.div_eq_of_lt h]
    omega
  · have := Nat.mod_lt m.rank (show 0 < blockSize by decide)
    omega

theorem steps_pos (h : m ≠ zero) : 0 < m.steps := by
  refine Nat.pos_of_ne_zero fun hsteps => h ?_
  obtain ⟨-, hdoublings⟩ := m.steps_bounds
  have hrank := m.rank_eq
  rw [hdoublings.resolve_right (by omega), hsteps] at hrank
  rw [← ofRank_rank m, hrank]
  rfl

theorem units_pos (h : m ≠ zero) : 0 < m.units := by
  rw [units, Nat.shiftLeft_eq]
  exact Nat.mul_pos (steps_pos h) (Nat.two_pow_pos _)

/-- The number of binary digits of the value tells how often the step has doubled. -/
theorem log2_units (h : m ≠ zero) : m.units.log2 - 52 = m.doublings := by
  have hunits := Nat.ne_of_gt (units_pos h)
  have hshift : m.units = m.steps * 2 ^ m.doublings := Nat.shiftLeft_eq ..
  obtain ⟨hlt, hge⟩ := m.steps_bounds
  have hupper : m.units.log2 < 53 + m.doublings := by
    rw [Nat.log2_lt hunits, hshift, Nat.pow_add]
    exact Nat.mul_lt_mul_of_pos_right hlt (Nat.two_pow_pos _)
  rcases hge with hzero | hge
  · omega
  · have hlower : 52 + m.doublings ≤ m.units.log2 := by
      rw [Nat.le_log2 hunits, hshift, Nat.pow_add]
      exact Nat.mul_le_mul_right _ hge
    omega

/-- The double nearest to the value of a double is that double. -/
theorem nearest_eq {num den : Nat} (h : m ≠ zero) (hden : 0 < den)
    (hvalue : num <<< 1074 = m.units * den) : nearest num den = m := by
  have hsteps : m.units * den = m.steps * den <<< m.doublings := by
    rw [units, Nat.shiftLeft_eq, Nat.shiftLeft_eq, Nat.mul_assoc, Nat.mul_comm den]
  have hpos : 0 < den <<< m.doublings := by
    rw [Nat.shiftLeft_eq]
    exact Nat.mul_pos hden (Nat.two_pow_pos _)
  unfold nearest
  dsimp only
  rw [hvalue, Nat.mul_div_cancel _ hden, log2_units h, hsteps, roundHalfEven_mul _ hpos, ← rank_eq,
    ofRank_rank]

theorem shiftLeft_five_pow (u n : Nat) : (u * Nat.pow 5 n) <<< n = u * Nat.pow 10 n := by
  rw [Nat.shiftLeft_eq, Nat.mul_assoc]
  exact congrArg (u * ·) (Nat.mul_pow 5 2 n).symm

theorem mul_five_pow_pos {u : Nat} (h : 0 < u) (n : Nat) : 0 < u * Nat.pow 5 n :=
  Nat.mul_pos h (Nat.pow_pos (by decide))

theorem le_log2_five_pow {u : Nat} (h : 0 < u) (n : Nat) : 2 * n ≤ (u * Nat.pow 5 n).log2 := by
  have hfive : 4 ^ n ≤ 5 ^ n := Nat.pow_le_pow_left (by decide) n
  have hle : 2 ^ (2 * n) ≤ u * 5 ^ n := by
    rw [Nat.pow_mul]
    exact Nat.le_trans hfive (Nat.le_mul_of_pos_left _ h)
  exact (Nat.le_log2 (Nat.ne_of_gt (mul_five_pow_pos h n))).mpr hle

/-- A fraction with as many places as the unit has binary ones holds the exact value, and reads
back. -/
theorem nearest_of_places {d : Decimal} {n : Nat} (h : m ≠ zero) (hn : n = 1074)
    (hdigits : d.digits = m.units * Nat.pow 5 n) (hexponent : d.exponent = -n) : d.nearest = m := by
  have hlog := le_log2_five_pow (units_pos h) n
  have hpos := mul_five_pow_pos (units_pos h) n
  have hwhole : (-(n : Int)).toNat = 0 := by omega
  have hplaces : (-(-(n : Int))).toNat = n := by omega
  rw [← hdigits] at hlog hpos
  rw [Decimal.nearest_eq (Nat.ne_of_gt hpos) (by omega) (by omega), hexponent, hwhole, hplaces]
  refine nearest_eq h (Nat.pow_pos (by decide)) ?_
  rw [← hn, hdigits, show Nat.pow 10 0 = 1 from rfl, Nat.mul_one, shiftLeft_five_pow]

theorem nearest_exact (h : m ≠ zero) : m.exact.nearest = m := by
  unfold exact
  generalize hn : 1074 = n
  exact nearest_of_places h hn.symm rfl (by dsimp only; omega)

/-- Whatever a double is written as reads back. -/
theorem nearest_shortest (h : m ≠ zero) : m.shortest.nearest = m := by
  unfold shortest
  dsimp only
  cases hfound : (List.range 18).findSome? fun n : Nat => m.onGrid? (m.decimalPlace - n) with
  | none => exact nearest_exact h
  | some d =>
    obtain ⟨n, -, hgrid⟩ := List.exists_of_findSome?_eq_some hfound
    exact nearest_of_onGrid? hgrid

end Magnitude

end Precedence

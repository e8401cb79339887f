import Mathlib.Algebra.Group.Nat.Defs
import Precedence.Proofs.NumberText

/-!
# How large a number may be

No double lies between the largest finite one and infinity, and rounding to nearest parts what lies
there in the middle: at `2 ^ 1024 - 2 ^ 970`, half a step behind the largest finite double
(`leastInfinite`). What is written below is read as a finite double, and what is not, as infinity
(`Decimal.isFinite_nearest_iff`). Nothing written is too large to be read.
-/

namespace Precedence

/-! ## Rounding half to even -/

section Rounding

variable {num den n : Nat}

/-- The whole number nearest to a fraction is its floor or the next one. -/
theorem roundHalfEven_eq_or (num den : Nat) :
    roundHalfEven num den = num / den ∨ roundHalfEven num den = num / den + 1 := by
  unfold roundHalfEven
  dsimp only
  split
  · exact .inl rfl
  · split
    · exact .inr rfl
    · split
      · exact .inl rfl
      · exact .inr rfl

theorem le_roundHalfEven (hden : 0 < den) (h : n * den ≤ num) : n ≤ roundHalfEven num den := by
  have hq : n ≤ num / den := (Nat.le_div_iff_mul_le hden).mpr h
  rcases roundHalfEven_eq_or num den with heq | heq <;> omega

theorem roundHalfEven_le (hden : 0 < den) (h : num < n * den) : roundHalfEven num den ≤ n := by
  have hq : num / den < n := (Nat.div_lt_iff_lt_mul hden).mpr h
  rcases roundHalfEven_eq_or num den with heq | heq <;> omega

/-- What lies halfway below an even number is rounded up to it. -/
theorem roundHalfEven_lt_iff (hden : 0 < den) (heven : n % 2 = 0) :
    roundHalfEven num den < n ↔ 2 * num + den < 2 * (n * den) := by
  have hnum : num / den * den + num % den = num := Nat.div_add_mod' num den
  have hr : num % den < den := Nat.mod_lt num hden
  rcases Nat.lt_trichotomy (num / den + 1) n with hlt | heq | hgt
  · have hround : roundHalfEven num den < n := by
      rcases roundHalfEven_eq_or num den with heq | heq <;> omega
    have hmul : (num / den + 2) * den ≤ n * den := Nat.mul_le_mul_right den hlt
    rw [Nat.add_mul] at hmul
    exact iff_of_true hround (by omega)
  · have hmul : n * den = num / den * den + den := by rw [← heq, Nat.succ_mul]
    unfold roundHalfEven
    dsimp only
    split
    · omega
    · split
      · omega
      · rw [if_neg (by omega)]
        omega
  · have hmul : n * den ≤ num :=
      (Nat.le_div_iff_mul_le hden).mp (Nat.le_of_lt_succ hgt)
    have hround := le_roundHalfEven hden hmul
    exact iff_of_false (Nat.not_lt.mpr hround) (by omega)

end Rounding

/-! ## Rounding to infinity -/

/-- The least value that is read as infinity, `2 ^ 1024 - 2 ^ 970`. -/
def leastInfinite : Nat := (2 ^ 54 - 1) * 2 ^ 970

namespace Magnitude

variable {num den k : Nat}

/-- Counted in the step that holds there, a value has no more than 53 binary digits, and no fewer
where the step has doubled. -/
theorem steps_of_log2 (hden : 0 < den) :
    num < 2 ^ 53 * (den <<< (Nat.log2 (num / den) - 52)) ∧
      (Nat.log2 (num / den) - 52 = 0 ∨ 2 ^ 52 * (den <<< (Nat.log2 (num / den) - 52)) ≤ num) := by
  generalize hlog : Nat.log2 (num / den) = log
  have hpow : ∀ m d, 2 ^ m * (den <<< d) = 2 ^ (m + d) * den := fun m d => by
    rw [Nat.shiftLeft_eq, Nat.pow_add, Nat.mul_comm den, Nat.mul_assoc]
  rw [hpow, hpow]
  constructor
  · rw [← Nat.div_lt_iff_lt_mul hden]
    refine Nat.lt_of_lt_of_le Nat.lt_log2_self ?_
    rw [hlog]
    exact Nat.pow_le_pow_right (by decide) (by omega)
  · rcases Nat.eq_zero_or_pos (log - 52) with hzero | hpos
    · exact .inl hzero
    · refine .inr ((Nat.le_div_iff_mul_le hden).mp ?_)
      have hne : num / den ≠ 0 := by
        intro hzero
        rw [hzero, Nat.log2_zero] at hlog
        omega
      refine Nat.le_trans ?_ (Nat.log2_self_le hne)
      exact Nat.pow_le_pow_right (by decide) (by omega)

/-- A value is rounded into the blocks up to the `k`-th, or behind them where it lies half a step or
less below their end. -/
theorem rank_lt_iff (hden : 0 < den) :
    (Nat.log2 (num / den) - 52) * blockSize +
        roundHalfEven num (den <<< (Nat.log2 (num / den) - 52)) < k * blockSize + 2 ^ 53 ↔
      2 * num + den <<< k < 2 ^ 54 * (den <<< k) := by
  obtain ⟨hupper, hlower⟩ := @steps_of_log2 num den hden
  generalize Nat.log2 (num / den) - 52 = d at *
  have hblock : blockSize = 2 ^ 52 := rfl
  have hstep : ∀ d, 0 < den <<< d := fun d => by
    rw [Nat.shiftLeft_eq]
    exact Nat.mul_pos hden (Nat.two_pow_pos d)
  have hdouble : ∀ {d e}, d < e → 2 * (den <<< d) ≤ den <<< e := fun {d e} h => by
    rw [Nat.shiftLeft_eq, Nat.shiftLeft_eq, Nat.mul_left_comm, ← Nat.pow_succ']
    exact Nat.mul_le_mul_left _ (Nat.pow_le_pow_right (by decide) h)
  have hround := roundHalfEven_le (hstep d) hupper
  rcases Nat.lt_trichotomy d k with hlt | rfl | hgt
  · have hmul := Nat.mul_lt_mul_of_pos_right hlt (hblock ▸ Nat.two_pow_pos 52)
    have hgrow := hdouble hlt
    exact iff_of_true (by omega) (by omega)
  · have hiff := @roundHalfEven_lt_iff num _ (2 ^ 53) (hstep d) (by decide)
    omega
  · have hlower := hlower.resolve_left (Nat.ne_of_gt (Nat.zero_lt_of_lt hgt))
    have hmul := Nat.mul_le_mul_right blockSize hgt
    rw [Nat.succ_mul] at hmul
    have hgrow := hdouble hgt
    have hround := le_roundHalfEven (hstep d) hlower
    exact iff_of_false (by omega) (by omega)

theorem isFinite_ofRank {n : Nat} : (ofRank n).isFinite = true ↔ n < infinityRank := by
  rw [isFinite, ofRank, decide_eq_true_eq]
  dsimp only
  omega

/-- Half a step below the end of the last block of finite sizes is the least infinite value. -/
theorem lt_leastInfinite_iff :
    2 * num <<< 1074 + den <<< 2045 < 2 ^ 54 * (den <<< 2045) ↔ num < leastInfinite * den := by
  have hnum : ∀ {m n}, m + 1 = n → 2 * num <<< m = num * 2 ^ n := fun {m n} h => by
    rw [← h, Nat.shiftLeft_eq, Nat.mul_left_comm, ← Nat.pow_succ']
  have hden : ∀ m n, den <<< (m + n) = den * 2 ^ m * 2 ^ n := fun m n => by
    rw [Nat.shiftLeft_eq, Nat.mul_assoc, ← Nat.pow_add]
  have hpos : ∀ n, 0 < 2 ^ n := Nat.two_pow_pos
  have hscale := hpos 1075
  rw [hnum (show 1074 + 1 = 1075 from rfl), hden 970 1075, leastInfinite]
  -- The powers are too large to be multiplied out.
  generalize 2 ^ 1075 = scale at *
  generalize 2 ^ 970 = half
  rw [← Nat.add_mul, ← Nat.mul_assoc, Nat.mul_lt_mul_right hscale, Nat.mul_assoc _ half,
    Nat.mul_comm half]
  omega

theorem isFinite_nearest_iff (hden : 0 < den) :
    (nearest num den).isFinite = true ↔ num < leastInfinite * den := by
  have hrank := @rank_lt_iff (num <<< 1074) den 2045 hden
  have hinfinity : infinityRank = 2045 * blockSize + 2 ^ 53 := rfl
  rw [nearest, isFinite_ofRank, hinfinity, hrank, lt_leastInfinite_iff]

end Magnitude

/-! ## Numerals -/

/-- A numeral without its point, as one whole number. -/
def numeralDigits (text : List Char) : Nat := digitsValue (text.filter isAsciiDigit)

/-- The number of digits behind the point. -/
def numeralPlaces (text : List Char) : Nat := ((text.dropWhile (· ≠ '.')).drop 1).length

/-- The numeral stands for less than the least infinite value. -/
def InRange (text : List Char) : Prop :=
  numeralDigits text < leastInfinite * 10 ^ numeralPlaces text

instance (text : List Char) : Decidable (InRange text) := Nat.decLt _ _

theorem leastInfinite_pos : 0 < leastInfinite := by
  have hpow : ∀ n, 0 < 2 ^ n := Nat.two_pow_pos
  exact Nat.mul_pos (by decide) (hpow 970)

/-- A fraction that is settled as zero is below one. -/
theorem lt_ten_pow_of_log2_lt {digits places : Nat} (hdigits : digits ≠ 0)
    (h : digits.log2 < 3 * places) : digits < 10 ^ places := by
  have htwo : digits < 2 ^ (3 * places) := (Nat.log2_lt hdigits).mp h
  rw [Nat.pow_mul] at htwo
  exact Nat.lt_of_lt_of_le htwo (Nat.pow_le_pow_left (by decide) places)

theorem Decimal.isFinite_nearest_iff (digits places : Nat) :
    (nearest ⟨digits, -(places : Int)⟩).isFinite = true ↔ digits < leastInfinite * 10 ^ places := by
  have hpow : 0 < 10 ^ places := Nat.pow_pos (by decide)
  have hzero : Magnitude.zero.isFinite = true := by decide
  by_cases hdigits : digits = 0
  · subst hdigits
    rw [nearest, if_pos rfl]
    exact iff_of_true hzero (Nat.mul_pos leastInfinite_pos hpow)
  have hwhole : (-(places : Int)).toNat = 0 := by omega
  have hplaces : (-(-(places : Int))).toNat = places := by omega
  have hlarge : -(places : Int) ≤ 400 := by omega
  rcases Nat.lt_or_ge (digits.log2 + 1101) (3 * places) with htiny | hreach
  · have hlt := lt_ten_pow_of_log2_lt hdigits (Nat.lt_of_le_of_lt (Nat.le_add_right _ _) htiny)
    rw [← hplaces] at htiny
    have hnegative : -(places : Int) < 0 := by omega
    rw [nearest, if_neg hdigits, if_neg (Int.not_lt.mpr hlarge), if_pos ⟨hnegative, htiny⟩]
    exact iff_of_true hzero (Nat.lt_of_lt_of_le hlt (Nat.le_mul_of_pos_left _ leastInfinite_pos))
  · rw [← hplaces] at hreach
    rw [nearest_eq hdigits hlarge hreach]
    dsimp only
    rw [hwhole, hplaces, show Nat.pow 10 0 = 1 from rfl, Nat.mul_one]
    exact Magnitude.isFinite_nearest_iff hpow

theorem filter_digits {digits : List Char} (h : IsDigits digits) :
    digits.filter isAsciiDigit = digits := List.filter_eq_self.mpr h.2

theorem dropWhile_point {digits rest : List Char} (h : IsDigits digits) :
    (digits ++ rest).dropWhile (· ≠ '.') = rest.dropWhile (· ≠ '.') := by
  refine List.dropWhile_append_of_pos fun c hc => ?_
  have hdigit := h.2 c hc
  rw [decide_eq_true_eq]
  rintro rfl
  cases hdigit

/-- A numeral is read as a number without a sign, which is finite exactly if the numeral is in
range. -/
theorem IsNumeral.exists_read {text : List Char} (h : IsNumeral text) :
    ∃ m : Magnitude, Binary64.read? text = some (.signed false m) ∧
      (m.isFinite = true ↔ InRange text) := by
  rw [Binary64.read?_of_isNumeral h]
  cases h with
  | whole h =>
    have hplaces : numeralPlaces text = 0 := by
      have hdrop := @dropWhile_point text [] h
      rw [List.append_nil] at hdrop
      rw [numeralPlaces, hdrop]
      rfl
    refine ⟨_, by rw [readDecimal?_whole h]; rfl, ?_⟩
    rw [InRange, numeralDigits, filter_digits h, hplaces]
    exact Decimal.isFinite_nearest_iff _ 0
  | @point whole places h hplaces =>
    have hlength : numeralPlaces (whole ++ '.' :: places) = places.length := by
      rw [numeralPlaces, dropWhile_point h]
      rfl
    have hdigits : numeralDigits (whole ++ '.' :: places) = digitsValue (whole ++ places) := by
      rw [numeralDigits, List.filter_append, filter_digits h, List.filter_cons_of_neg (by decide),
        filter_digits hplaces]
    refine ⟨_, by rw [readDecimal?_point h hplaces]; rfl, ?_⟩
    rw [InRange, hdigits, hlength]
    exact Decimal.isFinite_nearest_iff _ places.length

end Precedence

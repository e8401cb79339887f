import Mathlib.Data.List.TakeWhile
import Precedence.Binary64.Reader
import Precedence.Proofs.Lexeme
import Precedence.Proofs.Rounding

/-!
# Numbers read back

A finite double without a sign is written as a numeral, digits with a point and digits behind them
or without, and reading the numeral gives the double back (`Binary64.ofString?_text`). What is
written is a decimal fraction with every digit in its place, which is read as the same fraction, or,
where its exponent put zeros behind the digits, as one of the same value.
-/

namespace Precedence

theorem isAsciiDigit_eq_isDigit (c : Char) : isAsciiDigit c = c.isDigit := by
  rw [Bool.eq_iff_iff, isAsciiDigit_iff, Char.isDigit_iff_toNat]
  rfl

/-! ## Digits -/

section Digits

variable {whole places : List Char}

theorem isDigits_append_left {s t : List Char} (hs : IsDigits s)
    (ht : ∀ c ∈ t, isAsciiDigit c = true) : IsDigits (s ++ t) :=
  ⟨by simp [hs.1], List.forall_mem_append.mpr ⟨hs.2, ht⟩⟩

theorem isDigits_toDigits (n : Nat) : IsDigits (Nat.toDigits 10 n) := by
  refine ⟨Nat.toDigits_ne_nil, fun c hc => ?_⟩
  rw [isAsciiDigit_eq_isDigit]
  exact Nat.isDigit_of_mem_toDigits (by decide) (by decide) hc

theorem isAsciiDigit_of_mem_zeros {n : Nat} {c : Char} (h : c ∈ List.replicate n '0') :
    isAsciiDigit c = true := by
  rw [List.eq_of_mem_replicate h]
  decide

theorem digitsValue_eq (digits : List Char) : digitsValue digits = Nat.ofDigitChars 10 digits 0 :=
  rfl

theorem digitsValue_append_zeros (n e : Nat) :
    digitsValue (Nat.toDigits 10 n ++ List.replicate e '0') = n * Nat.pow 10 e := by
  rw [digitsValue_eq, Nat.ofDigitChars_append, Nat.ofDigitChars_ten_toDigits,
    Nat.ofDigitChars_replicate_zero, Nat.mul_comm]
  rfl

theorem digitsValue_zeros_append (n k : Nat) :
    digitsValue (List.replicate k '0' ++ Nat.toDigits 10 n) = n := by
  rw [digitsValue_eq, Nat.ofDigitChars_append, Nat.ofDigitChars_replicate_zero, Nat.mul_zero,
    Nat.ofDigitChars_ten_toDigits]

/-! ## Reading a numeral -/

theorem takeWhile_digits (h : IsDigits whole) : whole.takeWhile isAsciiDigit = whole :=
  List.takeWhile_eq_self_iff.mpr h.2

theorem dropWhile_digits (h : IsDigits whole) : whole.dropWhile isAsciiDigit = [] :=
  List.dropWhile_eq_nil_iff.mpr h.2

theorem readDecimal?_whole (h : IsDigits whole) :
    readDecimal? whole = some ⟨digitsValue whole, 0⟩ := by
  unfold readDecimal?
  simp [takeWhile_digits h, dropWhile_digits h, h.1]

theorem readDecimal?_point (h : IsDigits whole) (hplaces : IsDigits places) :
    readDecimal? (whole ++ '.' :: places) =
      some ⟨digitsValue (whole ++ places), -(places.length : Int)⟩ := by
  have hpoint : isAsciiDigit '.' = false := by decide
  unfold readDecimal?
  simp [List.takeWhile_append_of_pos h.2, List.dropWhile_append_of_pos h.2, hpoint,
    takeWhile_digits hplaces, dropWhile_digits hplaces, h.1]

theorem toLower_of_isAsciiDigit {c : Char} (h : isAsciiDigit c = true) : c.toLower = c := by
  have hle : c.val.toNat ≤ 57 := (isAsciiDigit_iff.mp h).2
  refine dif_neg fun hupper => ?_
  have hge : 65 ≤ c.val.toNat := UInt32.le_iff_toNat_le.mp hupper.1
  omega

/-- No numeral is a word or has a sign. -/
theorem Binary64.read?_of_isNumeral {text : List Char} (h : IsNumeral text) :
    read? text = (readDecimal? text).map fun d => signed false d.nearest := by
  obtain ⟨c, rest, rfl, hc⟩ := exists_cons_of_isNumeral h
  have hne : ∀ d : Char, isAsciiDigit d = false → c ≠ d := by
    rintro _ hd rfl
    exact absurd hc (by simp [hd])
  have hplus := hne '+' (by decide)
  have hminus := hne '-' (by decide)
  have hunsigned : read? (c :: rest) = readUnsigned? false (c :: rest) := by
    unfold read?
    split
    · rename_i heq; exact absurd (List.cons.inj heq).1 hminus
    · rename_i heq; exact absurd (List.cons.inj heq).1 hplus
    · rfl
  rw [hunsigned, readUnsigned?]
  simp [toLower_of_isAsciiDigit hc, hne 'n' (by decide), hne 'i' (by decide)]

end Digits

/-! ## Writing a number -/

namespace Decimal

/-- Zeros behind the digits are as good as a power of ten. -/
theorem nearest_zeros {d : Decimal} (hdigits : d.digits ≠ 0) (hwhole : 0 ≤ d.exponent)
    (hlarge : d.exponent ≤ 400) :
    nearest ⟨d.digits * Nat.pow 10 d.exponent.toNat, 0⟩ = d.nearest := by
  have hpow : 0 < Nat.pow 10 d.exponent.toNat := Nat.pow_pos (by decide)
  have hplaces : (-d.exponent).toNat = 0 := by omega
  rw [nearest_eq hdigits hlarge (by omega),
    nearest_eq (Nat.ne_of_gt (Nat.mul_pos (Nat.pos_of_ne_zero hdigits) hpow))
      (by dsimp only; omega) (by dsimp only; omega), hplaces]
  exact congrArg (Magnitude.nearest · _) (Nat.mul_one _)

/-- A row of digits cut in front of its last `places`, of which it has more. -/
theorem isNumeral_and_read_of_places {row : List Char} {places : Nat} (hrow : IsDigits row)
    (hpos : 0 < places) (hlength : places < row.length) :
    IsNumeral (row.take (row.length - places) ++ '.' :: row.drop (row.length - places)) ∧
      readDecimal? (row.take (row.length - places) ++ '.' :: row.drop (row.length - places)) =
        some ⟨digitsValue row, -(places : Int)⟩ := by
  have hwhole : IsDigits (row.take (row.length - places)) := by
    refine ⟨fun hempty => ?_, fun c hc => hrow.2 c (List.mem_of_mem_take hc)⟩
    have := congrArg List.length hempty
    rw [List.length_take, List.length_nil] at this
    omega
  have hfraction : (row.drop (row.length - places)).length = places := by
    rw [List.length_drop]
    omega
  have hplaces : IsDigits (row.drop (row.length - places)) :=
    ⟨List.length_pos_iff.mp (by omega), fun c hc => hrow.2 c (List.mem_of_mem_drop hc)⟩
  refine ⟨.point hwhole hplaces, ?_⟩
  rw [readDecimal?_point hwhole hplaces, List.take_append_drop, hfraction]

/-- A fraction is written as a numeral, which is read as a fraction that rounds to the same. -/
theorem isNumeral_text_and_read {d : Decimal} (hdigits : d.digits ≠ 0) (hlarge : d.exponent ≤ 400) :
    IsNumeral d.text ∧ ∃ d', readDecimal? d.text = some d' ∧ d'.nearest = d.nearest := by
  unfold text
  dsimp only
  split
  · rename_i hwhole
    have hwritten := isDigits_append_left (isDigits_toDigits d.digits)
      fun _ => isAsciiDigit_of_mem_zeros (n := d.exponent.toNat)
    refine ⟨.whole hwritten, _, readDecimal?_whole hwritten, ?_⟩
    rw [digitsValue_append_zeros, nearest_zeros hdigits hwhole hlarge]
  · rename_i hnegative
    generalize hplaces : (-d.exponent).toNat = places
    generalize hrow : List.replicate (places + 1 - (Nat.toDigits 10 d.digits).length) '0' ++
      Nat.toDigits 10 d.digits = row
    have hdigitsRow : IsDigits row := by
      rw [← hrow]
      exact ⟨by simp, List.forall_mem_append.mpr
        ⟨fun _ => isAsciiDigit_of_mem_zeros, (isDigits_toDigits d.digits).2⟩⟩
    have hlength : places < row.length := by
      rw [← hrow, List.length_append, List.length_replicate]
      omega
    obtain ⟨hnumeral, hread⟩ := isNumeral_and_read_of_places hdigitsRow (by omega) hlength
    refine ⟨hnumeral, _, hread, congrArg nearest ?_⟩
    have hexponent : -(places : Int) = d.exponent := by omega
    rw [← hrow, digitsValue_zeros_append, hexponent]

end Decimal

variable {m : Magnitude}

theorem Magnitude.ne_infinity (hfinite : m.isFinite = true) : m ≠ .infinity := by
  rintro rfl
  simp [isFinite, infinity] at hfinite

/-- The shortest fraction is not zero and within the reach of the text. -/
theorem Magnitude.shortest_bounds (hfinite : m.isFinite = true) (h : m ≠ .zero) :
    m.shortest.digits ≠ 0 ∧ m.shortest.exponent ≤ 400 := by
  have hnearest := nearest_shortest h
  constructor
  · intro hzero
    rw [Decimal.nearest, if_pos hzero] at hnearest
    exact h hnearest.symm
  · refine Int.not_lt.mp fun hlarge => ?_
    unfold Decimal.nearest at hnearest
    split at hnearest
    · exact h hnearest.symm
    · exact ne_infinity hfinite hnearest.symm

/-- A finite size is written as a numeral, which reads back. -/
theorem Magnitude.isNumeral_text_and_read (hfinite : m.isFinite = true) :
    IsNumeral m.text ∧ ∃ d, readDecimal? m.text = some d ∧ d.nearest = m := by
  by_cases hzero : m = .zero
  · subst hzero
    have hdigits : IsDigits ['0'] := ⟨nofun, List.forall_mem_singleton.mpr (by decide)⟩
    rw [text, if_pos rfl]
    refine ⟨.whole hdigits, _, readDecimal?_whole hdigits, ?_⟩
    rw [Decimal.nearest, if_pos (by decide)]
  · obtain ⟨hdigits, hlarge⟩ := shortest_bounds hfinite hzero
    rw [text, if_neg hzero, if_neg (ne_infinity hfinite)]
    obtain ⟨hnumeral, d, hread, hnearest⟩ := Decimal.isNumeral_text_and_read hdigits hlarge
    exact ⟨hnumeral, d, hread, hnearest.trans (nearest_shortest hzero)⟩

/-- A finite double without a sign reads back from its text. -/
theorem Binary64.ofString?_text (hfinite : m.isFinite = true) :
    ofString? (signed false m).text = some (signed false m) := by
  obtain ⟨hnumeral, d, hread, hnearest⟩ := Magnitude.isNumeral_text_and_read hfinite
  rw [ofString?, text, String.toList_ofList, if_neg Bool.false_ne_true,
    read?_of_isNumeral hnumeral, hread, Option.map_some, hnearest]

end Precedence

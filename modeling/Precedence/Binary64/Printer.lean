import Precedence.Binary64.Nearest

/-!
# Writing a number

A double is written with the fewest digits that read back as the same double, of these the
nearest to its value, and of two equally near the larger. The digits stand in their places: there
is never an exponent, a whole number has no point, and no zero ends a fraction.

The search goes from coarse decimal grids to fine ones. If any point of a grid reads back as the
number, then so does one of the two points of that grid around it, so only these two are tried;
seventeen digits always suffice. Should no grid answer, the exact value is written, which reads
back by itself: a binary fraction of 1074 places is a decimal fraction of as many.
-/

namespace Precedence

namespace Magnitude

/-- The number of digits before the point, or minus the number of zeros behind it: the least `k`
with the value below ten to the `k`. Scaled by ten to the 400 the value of the least positive
size still has a whole part, so counting the digits of that part is enough. -/
def decimalPlace (m : Magnitude) : Int :=
  ((Nat.toDigits 10 ((m.units * Nat.pow 10 400) >>> 1074)).length : Int) - 400

/-- The point nearest to `m` on the grid of multiples of ten to the `place` that reads back as
`m`, if one does. -/
def onGrid? (m : Magnitude) (place : Int) : Option Decimal :=
  let num := m.units * Nat.pow 10 (-place).toNat
  let den := Nat.pow 10 place.toNat <<< 1074
  let below : Decimal := ⟨num / den, place⟩
  let above : Decimal := ⟨num / den + 1, place⟩
  match decide (below.nearest = m), decide (above.nearest = m) with
  | true, true => if 2 * (num % den) < den then some below else some above
  | true, false => some below
  | false, true => some above
  | false, false => none

def exact (m : Magnitude) : Decimal := ⟨m.units * Nat.pow 5 1074, -1074⟩

/-- The decimal fraction a positive finite size is written as. -/
def shortest (m : Magnitude) : Decimal :=
  let place := m.decimalPlace
  ((List.range 18).findSome? fun (n : Nat) => m.onGrid? (place - n)).getD m.exact

/-- What stands on a grid reads back. -/
theorem nearest_of_onGrid? {m : Magnitude} {place : Int} {d : Decimal}
    (h : m.onGrid? place = some d) : d.nearest = m := by
  unfold onGrid? at h
  simp only at h
  split at h
  · rename_i h1 h2
    split at h <;> cases h
    · exact of_decide_eq_true h1
    · exact of_decide_eq_true h2
  · rename_i h1 _
    cases h; exact of_decide_eq_true h1
  · rename_i _ h2
    cases h; exact of_decide_eq_true h2
  · cases h

end Magnitude

/-- A decimal fraction with every digit in its place. A fraction below one has a zero before its
point. -/
def Decimal.text (d : Decimal) : List Char :=
  let digits := Nat.toDigits 10 d.digits
  if 0 ≤ d.exponent then digits ++ List.replicate d.exponent.toNat '0'
  else
    let places := (-d.exponent).toNat
    let padded := List.replicate (places + 1 - digits.length) '0' ++ digits
    padded.take (padded.length - places) ++ '.' :: padded.drop (padded.length - places)

/-- A size in digits, or `inf`. -/
def Magnitude.text (m : Magnitude) : List Char :=
  if m = .zero then ['0']
  else if m = .infinity then ['i', 'n', 'f']
  else m.shortest.text

/-- A double in digits, `inf` or `NaN`, with a minus sign before a negative one, zero included. -/
def Binary64.text : Binary64 → String
  | nan => "NaN"
  | signed negative size => String.ofList (if negative then '-' :: size.text else size.text)

end Precedence

import Precedence.Binary64.Nearest
import Precedence.Text.DecimalDigit

/-!
# Reading a number

The text of a number is an optional sign followed by `inf`, `infinity` or `nan` in any mixture of
cases, or by decimal digits with an optional point among, before or behind them and an optional
exponent. There is at least one digit beside the point, at least one in the exponent, and nothing
before or behind the whole. The value is the double nearest to what is written; a text too large
for one is infinity, a text too small is zero.

The numbers a text of the language can hold are only the plainest of these, whole digits and at
most one point between digits. The others come in with tokens made by hand.
-/

namespace Precedence

def digitsValue (digits : List Char) : Nat :=
  digits.foldl (fun n c => 10 * n + (c.toNat - 48)) 0

/-- The exponent: an optional sign and one digit or more. -/
def readExponent? (text : List Char) : Option Int :=
  match text with
  | '-' :: digits => if plain digits then some (-(digitsValue digits : Int)) else none
  | '+' :: digits => if plain digits then some (digitsValue digits) else none
  | digits => if plain digits then some (digitsValue digits) else none
where
  /-- Digits only, and not none. -/
  plain (digits : List Char) : Bool := !digits.isEmpty && digits.all isAsciiDigit

/-- Digits with an optional point and an optional exponent. The digits on both sides of the point
make one whole number, and each digit behind the point lowers the exponent by one. -/
def readDecimal? (text : List Char) : Option Decimal :=
  let whole := text.takeWhile isAsciiDigit
  let rest := text.dropWhile isAsciiDigit
  let (fraction, rest) := match rest with
    | '.' :: rest => (rest.takeWhile isAsciiDigit, rest.dropWhile isAsciiDigit)
    | rest => ([], rest)
  let digits := whole ++ fraction
  if digits.isEmpty then none
  else match rest with
    | [] => some ⟨digitsValue digits, -(fraction.length : Int)⟩
    | mark :: rest =>
        if mark = 'e' || mark = 'E' then
          (readExponent? rest).map fun exponent =>
            ⟨digitsValue digits, exponent - (fraction.length : Int)⟩
        else none

namespace Binary64

/-- A number without its sign, given the sign. -/
def readUnsigned? (negative : Bool) (text : List Char) : Option Binary64 :=
  let lower := text.map Char.toLower
  if lower = ['n', 'a', 'n'] then some nan
  else if lower = ['i', 'n', 'f'] || lower = ['i', 'n', 'f', 'i', 'n', 'i', 't', 'y'] then
    some (signed negative .infinity)
  else (readDecimal? text).map fun d => signed negative d.nearest

/-- The double a text stands for, if it is the text of a number. -/
def read? (text : List Char) : Option Binary64 :=
  match text with
  | '-' :: rest => readUnsigned? true rest
  | '+' :: rest => readUnsigned? false rest
  | rest => readUnsigned? false rest

def ofString? (text : String) : Option Binary64 := read? text.toList

end Binary64

end Precedence

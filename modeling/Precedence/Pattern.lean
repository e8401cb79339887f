import Precedence.Text.DecimalDigit
import Precedence.Text.Letter

/-!
# Patterns

A pattern looks at the text ahead and says how many characters it claims from the front of it;
none means that it does not match. Every pattern of the language takes as much as it can. A
pattern never needs to see what lies behind the place where it begins.

None of them claims a line feed (`StaysOnLine`): that is why counting columns is enough to place
what they claim. A caller who drives the scanner by hand may bring patterns that reach over a line
feed, or that claim text in front of what they look for.
-/

namespace Precedence

/-- How many characters from the front of a text belong to the match; zero for no match. -/
abbrev Pattern := List Char → Nat

/-- White space within a line: space, tab, carriage return, vertical tab and form feed. -/
def isBlank (c : Char) : Bool :=
  c = ' ' || c = '\t' || c = '\r' || c = '\x0b' || c = '\x0c'

/-- White space: a blank or a line feed. -/
def isSpace (c : Char) : Bool :=
  isBlank c || c = '\n'

/-- What may follow the first letter of an identifier. -/
def continuesIdentifier (c : Char) : Bool :=
  isLetter c || isDecimalDigit c || c = '_'

namespace Pattern

def many (p : Char → Bool) : Pattern := fun text => (text.takeWhile p).length

def oneOf (choices : List Char) : Pattern
  | c :: _ => if choices.contains c then 1 else 0
  | [] => 0

/-- White space up to the end of the line. -/
def blanks : Pattern := many isBlank

/-- A number sign and everything behind it on its line. -/
def comment : Pattern
  | '#' :: rest => 1 + many (· != '\n') rest
  | _ => 0

/-- Digits, and behind them a point with digits if there is one. A point without digits behind it
is left alone. -/
def number : Pattern := fun text =>
  let whole := many isAsciiDigit text
  if whole = 0 then 0
  else match text.drop whole with
    | '.' :: rest =>
        let places := many isAsciiDigit rest
        if places = 0 then whole else whole + 1 + places
    | _ => whole

/-- A letter, and behind it letters, digits of any script and underscores. -/
def identifier : Pattern
  | c :: rest => if isLetter c then 1 + many continuesIdentifier rest else 0
  | [] => 0

/-- The sign for inequality, in one character or in two. -/
def notEquals : Pattern
  | '!' :: '=' :: _ => 2
  | '≠' :: _ => 1
  | _ => 0

/-! ## The patterns of the language stay on their line -/

/-- A pattern claims no line feed. -/
def StaysOnLine (pattern : Pattern) : Prop :=
  ∀ text : List Char, '\n' ∉ text.take (pattern text)

theorem take_many (p : Char → Bool) (text : List Char) :
    text.take (many p text) = text.takeWhile p :=
  List.prefix_iff_eq_take.mp (List.takeWhile_prefix p) |>.symm

theorem newline_not_mem_takeWhile {p : Char → Bool} (h : p '\n' = false) (text : List Char) :
    '\n' ∉ text.takeWhile p := by
  intro hmem
  have := List.all_eq_true.mp List.all_takeWhile _ hmem
  simp [h] at this

theorem staysOnLine_many {p : Char → Bool} (h : p '\n' = false) : StaysOnLine (many p) := by
  intro text
  rw [take_many]
  exact newline_not_mem_takeWhile h text

theorem staysOnLine_oneOf {choices : List Char} (h : '\n' ∉ choices) :
    StaysOnLine (oneOf choices) := by
  intro text
  cases text with
  | nil => simp
  | cons c rest =>
    by_cases hc : c ∈ choices
    · have hne : '\n' ≠ c := fun e => h (e ▸ hc)
      simp [oneOf, hc, hne]
    · simp [oneOf, hc]

theorem staysOnLine_comment : StaysOnLine comment := by
  intro text
  unfold comment
  split
  · rename_i rest
    rw [Nat.add_comm, List.take_succ_cons, take_many]
    simp only [List.mem_cons, not_or]
    exact ⟨by decide, newline_not_mem_takeWhile (by decide) rest⟩
  · simp

theorem staysOnLine_number : StaysOnLine number := by
  intro text
  have hd : isAsciiDigit '\n' = false := by decide
  have hwhole := staysOnLine_many hd text
  unfold number
  dsimp only
  split
  · simp
  · split
    · rename_i rest hrest
      split
      · exact hwhole
      · rw [Nat.add_assoc, List.take_add, hrest, Nat.add_comm 1, List.take_succ_cons]
        simp only [List.mem_append, List.mem_cons, not_or]
        exact ⟨hwhole, by decide, staysOnLine_many hd rest⟩
    · exact hwhole

theorem staysOnLine_identifier : StaysOnLine identifier := by
  intro text
  unfold identifier
  split
  · rename_i c rest
    split
    · rename_i hc
      have hne : '\n' ≠ c := by
        rintro rfl
        exact absurd hc (by decide)
      rw [Nat.add_comm, List.take_succ_cons, take_many]
      simp only [List.mem_cons, not_or]
      exact ⟨hne, newline_not_mem_takeWhile (by decide) rest⟩
    · simp
  · simp

theorem staysOnLine_notEquals : StaysOnLine notEquals := by
  intro text
  unfold notEquals
  split <;> simp

end Pattern

end Precedence

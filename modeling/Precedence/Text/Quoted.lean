import Precedence.Text.GraphemeExtend
import Precedence.Text.Letter
import Precedence.Text.Unprintable

/-!
# Text in quotation marks

Diagnostics show a piece of the input between double quotation marks, in a form that survives a
terminal: the usual escapes for the characters that have one, a number for a character that would
not be seen or would melt into the mark before it, and every other character as itself. A single
quotation mark has no escape, since the text does not stand between single marks.

Of the letters, the two halfwidth Katakana sound marks extend the character before them in the
sense of Unicode, but they are drawn in a cell of their own; they stand as themselves
(`needsBase`).
-/

namespace Precedence

/-- The escape by number: the code point in lower-case hexadecimal, without leading zeros. -/
def numberEscape (c : Char) : List Char :=
  '\\' :: 'u' :: '\x7b' :: (Nat.toDigits 16 c.toNat ++ ['\x7d'])

/-- Not to be drawn without the character before it: what extends that and is no letter. -/
def needsBase (c : Char) : Bool := extendsGrapheme c && !isLetter c

/-- How one character is written between quotation marks. -/
def quotedChar (c : Char) : List Char :=
  if c = '\x00' then ['\\', '0']
  else if c = '\t' then ['\\', 't']
  else if c = '\r' then ['\\', 'r']
  else if c = '\n' then ['\\', 'n']
  else if c = '"' then ['\\', '"']
  else if c = '\\' then ['\\', '\\']
  else if needsBase c || isUnprintable c then numberEscape c
  else [c]

/-- A text between quotation marks, its characters escaped one by one. -/
def quoted (text : String) : String :=
  String.ofList ('"' :: (text.toList.flatMap quotedChar ++ ['"']))

/-- No character vanishes between the marks. -/
theorem quotedChar_ne_nil (c : Char) : quotedChar c ≠ [] := by
  unfold quotedChar numberEscape
  repeat' split
  all_goals simp

theorem toList_quoted (text : String) :
    (quoted text).toList = '"' :: (text.toList.flatMap quotedChar ++ ['"']) := by
  simp [quoted]

end Precedence

import Precedence.Pattern
import Precedence.Position

/-!
# A cursor in a text

The text that is still to be read, and the place where it begins. Two ways of moving are told
apart. `next` reads one character and knows what a line feed does to the place. `skip` takes the
characters a pattern claimed and moves the column alone, which is exact as long as no line feed
is among them; that holds of every pattern of the language (`Pattern.number` and the others stop
before one), and a caller who takes a line feed by hand gets the column moved past it.
-/

namespace Precedence

/-- What is left of a text, and where that begins. -/
structure Cursor where
  rest : List Char
  position : Position
deriving DecidableEq, Repr, Inhabited

namespace Cursor

def ofString (source : String) : Cursor := ⟨source.toList, .origin⟩

/-- Behind the next character, or here if there is none. -/
def next (c : Cursor) : Cursor :=
  match c.rest with
  | [] => c
  | ch :: rest => ⟨rest, c.position.after ch⟩

/-- Behind the next `n` characters, counted as columns. -/
def skip (c : Cursor) (n : Nat) : Cursor :=
  ⟨c.rest.drop n, c.position.shift (c.rest.take n).length⟩

/-- Behind the white space that begins here, over as many lines as it fills. -/
def skipSpace (c : Cursor) : Cursor :=
  ⟨c.rest.dropWhile isSpace, c.position.afterAll (c.rest.takeWhile isSpace)⟩

def toEnd (c : Cursor) : Cursor := ⟨[], c.position.afterAll c.rest⟩

/-- The next `n` characters as a string, and the stretch they fill. -/
def lexeme (c : Cursor) (n : Nat) : String × Span :=
  (String.ofList (c.rest.take n), ⟨c.position, (c.skip n).position⟩)

/-! ## Moving shortens the rest, and keeps the end where it is -/

theorem length_skipSpace_le (c : Cursor) : c.skipSpace.rest.length ≤ c.rest.length :=
  (List.dropWhile_suffix isSpace).length_le

theorem length_skip_lt {c : Cursor} {n : Nat} (hn : 0 < n) (h : c.rest ≠ []) :
    (c.skip n).rest.length < c.rest.length := by
  have := List.length_pos_iff.mpr h
  simp only [skip, List.length_drop]
  omega

theorem length_next_lt {c : Cursor} (h : c.rest ≠ []) : c.next.rest.length < c.rest.length := by
  obtain ⟨rest, position⟩ := c
  cases rest with
  | nil => exact absurd rfl h
  | cons ch rest => simp [next]

theorem toEnd_next (c : Cursor) : c.next.toEnd = c.toEnd := by
  obtain ⟨rest, position⟩ := c
  cases rest <;> rfl

theorem toEnd_skipSpace (c : Cursor) : c.skipSpace.toEnd = c.toEnd := by
  simp [toEnd, skipSpace, ← Position.afterAll_append, List.takeWhile_append_dropWhile]

theorem toEnd_skip {c : Cursor} {n : Nat} (h : '\n' ∉ c.rest.take n) :
    (c.skip n).toEnd = c.toEnd := by
  simp only [toEnd, skip]
  rw [← Position.afterAll_eq_shift _ h, ← Position.afterAll_append, List.take_append_drop]

end Cursor

end Precedence

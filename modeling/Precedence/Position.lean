/-!
# Places in a text

A place is a line and a column, both counted from one. A column counts characters, whatever
their width in bytes or on a screen, and only a line feed begins a new line: a carriage return is
a character like any other. Both numbers are 32-bit words, so the place of a text of fewer than
`2 ^ 32 - 1` characters is exact.
-/

namespace Precedence

structure Position where
  line : UInt32
  column : UInt32
deriving DecidableEq, Repr, Inhabited

namespace Position

/-- The first place of every text. -/
def origin : Position := ⟨1, 1⟩

/-- The place behind a character that stands at `p`. -/
def after (p : Position) (c : Char) : Position :=
  if c = '\n' then ⟨p.line + 1, 1⟩ else ⟨p.line, p.column + 1⟩

/-- The place behind a whole text that begins at `p`. -/
def afterAll (p : Position) (text : List Char) : Position :=
  text.foldl after p

/-- The place `n` columns further on the same line. -/
def shift (p : Position) (n : Nat) : Position :=
  ⟨p.line, p.column + UInt32.ofNat n⟩

/-- Written `line:column`. -/
def text (p : Position) : String :=
  toString p.line.toNat ++ ":" ++ toString p.column.toNat

/-- Reading order: by line, then by column. -/
def order (p q : Position) : Ordering :=
  (compare p.line q.line).then (compare p.column q.column)

@[simp] theorem afterAll_nil (p : Position) : p.afterAll [] = p := rfl

@[simp] theorem afterAll_cons (p : Position) (c : Char) (text : List Char) :
    p.afterAll (c :: text) = (p.after c).afterAll text := rfl

theorem afterAll_append (p : Position) (s t : List Char) :
    p.afterAll (s ++ t) = (p.afterAll s).afterAll t :=
  List.foldl_append

@[simp] theorem shift_zero (p : Position) : p.shift 0 = p := by
  simp [shift]

theorem shift_shift (p : Position) (m n : Nat) : (p.shift m).shift n = p.shift (m + n) := by
  simp [shift, UInt32.add_assoc]

/-- Over a text without a line feed the column alone moves, by the number of characters. -/
theorem afterAll_eq_shift (p : Position) {text : List Char} (h : '\n' ∉ text) :
    p.afterAll text = p.shift text.length := by
  induction text generalizing p with
  | nil => simp
  | cons c text ih =>
    have hc : c ≠ '\n' := fun e => h (by simp [e])
    have ht : '\n' ∉ text := fun m => h (List.mem_cons_of_mem c m)
    have step : p.after c = p.shift 1 := by simp [after, shift, hc]
    rw [afterAll_cons, ih _ ht, step, shift_shift, List.length_cons, Nat.add_comm]

end Position

/-- A stretch of text: where it begins, and the place behind its last character. -/
structure Span where
  start : Position
  stop : Position
deriving DecidableEq, Repr, Inhabited

def Span.point (p : Position) : Span := ⟨p, p⟩

end Precedence

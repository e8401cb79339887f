/-!
# Double-precision numbers

A number literal stands for a 64-bit binary floating-point number. The library keeps such a number
as what it means, not as a machine word that only the processor understands: either not a number,
or a sign and a *size*. The sizes are numbered from zero upward in order of magnitude, which is
also how the format stores them, so the rank of a size is its bit pattern and comparing sizes is
comparing natural numbers.

The value behind a rank is a whole number of *units* of `2 ^ (-1074)`, the least positive double
(`Magnitude.units`). Ranks below `2 ^ 52` count units one by one; from there on each block of
`2 ^ 52` ranks doubles the step. The rank after the last finite one is infinity, and it has the
value the next finite number would have had, which is exactly the bound that rounding to nearest
needs.
-/

namespace Precedence

/-- The rank of infinity: one more than that of the largest finite double. -/
def infinityRank : Nat := 0x7FF0000000000000

/-- The size of a double: zero, a positive finite one, or infinity, by its rank in order. -/
structure Magnitude where
  rank : Nat
  rank_le : rank ≤ infinityRank
deriving DecidableEq, Repr

/-- The number of sizes between two doublings of the step, `2 ^ 52`. -/
def blockSize : Nat := 0x10000000000000

namespace Magnitude

def zero : Magnitude := ⟨0, Nat.zero_le _⟩

def infinity : Magnitude := ⟨infinityRank, Nat.le_refl _⟩

instance : Inhabited Magnitude := ⟨zero⟩

/-- The size of a given rank; every rank beyond infinity's is infinity's. -/
def ofRank (n : Nat) : Magnitude := ⟨min n infinityRank, Nat.min_le_right _ _⟩

theorem ofRank_rank (m : Magnitude) : ofRank m.rank = m := by
  cases m with
  | mk rank h => simp [ofRank, Nat.min_eq_left h]

def isFinite (m : Magnitude) : Bool := m.rank < infinityRank

/-- How often the step has doubled at a size: the step there is `2 ^ doublings` units. -/
def doublings (m : Magnitude) : Nat := m.rank / blockSize - 1

/-- The size counted in steps: below the first doubling the rank itself, and from then on a
number of 53 binary digits. -/
def steps (m : Magnitude) : Nat :=
  if m.rank < blockSize then m.rank else blockSize + m.rank % blockSize

def units (m : Magnitude) : Nat := m.steps <<< m.doublings

end Magnitude

/-- A double: not a number, or a sign and a size. The two zeros differ in sign only. -/
inductive Binary64 where
  | nan
  | signed (negative : Bool) (size : Magnitude)
deriving DecidableEq, Repr, Inhabited

namespace Binary64

def isFinite : Binary64 → Bool
  | nan => false
  | signed _ size => size.isFinite

/-- Comparison for equality by value: the two zeros are equal, and what is not a number equals
nothing, itself included. -/
def equal : Binary64 → Binary64 → Bool
  | signed negative size, signed negative' size' =>
      size = size' && (negative = negative' || size = Magnitude.zero)
  | _, _ => false

theorem equal_nan_left (x : Binary64) : equal nan x = false := rfl

/-- A number equals itself unless it is not a number. -/
theorem equal_self_iff {x : Binary64} : equal x x = true ↔ x ≠ nan := by
  cases x <;> simp [equal]

theorem equal_comm (x y : Binary64) : equal x y = equal y x := by
  cases x with
  | nan => cases y <;> rfl
  | signed s m =>
    cases y with
    | nan => rfl
    | signed s' m' =>
      simp only [equal]
      by_cases h : m = m'
      · subst h; by_cases hs : s = s'
        · subst hs; rfl
        · simp [hs, Ne.symm hs]
      · simp [h, Ne.symm h]

end Binary64

end Precedence

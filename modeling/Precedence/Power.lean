/-!
# Binding power

How tightly an operator holds its operands, from the weakest level up. Only the order carries
meaning: an expression read at one power takes in every operator that binds tighter and leaves
the rest to whoever asked for it. `default` is the power of everything that is not an operator,
and nothing is weaker, so a token of that power always ends an expression.
-/

namespace Precedence

inductive Power where
  | default
  | equality
  | additive
  | multiplicative
  | implicitMultiplicative
  | exponent
  | unary
  | call
deriving DecidableEq, Repr, Inhabited

namespace Power

def rank : Power → Nat
  | default => 0
  | equality => 1
  | additive => 2
  | multiplicative => 3
  | implicitMultiplicative => 4
  | exponent => 5
  | unary => 6
  | call => 7

theorem rank_injective {p q : Power} (h : p.rank = q.rank) : p = q := by
  revert h; cases p <;> cases q <;> decide

instance : LT Power := ⟨fun p q => p.rank < q.rank⟩
instance : LE Power := ⟨fun p q => p.rank ≤ q.rank⟩
instance : DecidableRel (α := Power) (· < ·) := fun p q => Nat.decLt p.rank q.rank
instance : DecidableRel (α := Power) (· ≤ ·) := fun p q => Nat.decLe p.rank q.rank

theorem lt_iff {p q : Power} : p < q ↔ p.rank < q.rank := Iff.rfl
theorem le_iff {p q : Power} : p ≤ q ↔ p.rank ≤ q.rank := Iff.rfl

theorem not_lt {p q : Power} : ¬ p < q ↔ q ≤ p := Nat.not_lt

/-- Nothing binds less tightly than `default`. -/
theorem not_lt_default (p : Power) : ¬ p < default := Nat.not_lt_zero _

def order (p q : Power) : Ordering := compare p.rank q.rank

/-- The level just below, or the lowest. The right operand of an operator that groups to the
right is read at this power, so that an equal operator is taken into it. -/
def weaker : Power → Power
  | default => default
  | equality => default
  | additive => equality
  | multiplicative => additive
  | implicitMultiplicative => multiplicative
  | exponent => implicitMultiplicative
  | unary => exponent
  | call => unary

theorem rank_weaker (p : Power) : p.weaker.rank = p.rank - 1 := by
  cases p <;> rfl

/-- Above the lowest level, what binds tighter than the level below is what binds at least as
tightly as the level itself. -/
theorem weaker_lt_iff {p q : Power} (h : p ≠ default) : p.weaker < q ↔ p ≤ q := by
  have hp : 0 < p.rank := by revert h; cases p <;> decide
  rw [lt_iff, le_iff, rank_weaker]
  omega

def all : List Power :=
  [default, equality, additive, multiplicative, implicitMultiplicative, exponent, unary, call]

theorem mem_all (p : Power) : p ∈ all := by
  cases p <;> decide

def name : Power → String
  | default => "Default"
  | equality => "Equality"
  | additive => "Additive"
  | multiplicative => "Multiplicative"
  | implicitMultiplicative => "ImplicitMultiplicative"
  | exponent => "Exponent"
  | unary => "Unary"
  | call => "Call"

end Power

end Precedence

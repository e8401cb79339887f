import Precedence.Token

/-!
# Operators

An operator is what a sign means, whichever way it was spelled: a star and a cross both multiply,
and so does the sign nobody wrote. The kinds of token that mean an operator are given by
`Operator.ofKind?`; the others mean none.
-/

namespace Precedence

inductive Operator where
  | add
  | subtract
  | multiply
  | divide
  | exponent
  | equal
  | notEqual
deriving DecidableEq, Repr, Inhabited

namespace Operator

def ofKind? : TokenKind → Option Operator
  | .plus => some add
  | .dash => some subtract
  | .star | .implicitStar => some multiply
  | .slash => some divide
  | .caret => some exponent
  | .equals => some equal
  | .notEquals => some notEqual
  | _ => none

def all : List Operator := [add, subtract, multiply, divide, exponent, equal, notEqual]

theorem mem_all (op : Operator) : op ∈ all := by
  cases op <;> decide

/-- The sign an expression is written with. -/
def symbol : Operator → String
  | add => "+"
  | subtract => "-"
  | multiply => "*"
  | divide => "/"
  | exponent => "^"
  | equal => "="
  | notEqual => "!="

theorem symbol_injective {a b : Operator} (h : a.symbol = b.symbol) : a = b := by
  revert h; cases a <;> cases b <;> decide

def name : Operator → String
  | add => "Add"
  | subtract => "Subtract"
  | multiply => "Multiply"
  | divide => "Divide"
  | exponent => "Exponent"
  | equal => "Equal"
  | notEqual => "NotEqual"

end Operator

end Precedence

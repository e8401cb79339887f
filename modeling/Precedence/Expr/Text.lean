import Precedence.Binary64.Printer
import Precedence.Expr.Basic

/-!
# An expression on one line

An expression is written with its operator first and its operands behind it, all in parentheses:
`(+ 1 (* 2 3))`. A juxtaposed pair has a stroke behind its sign, `(*' 2 x)`, and a call begins
with the word: `(call f 1 2)`. Numbers and names stand as they are, so places are the only thing
the line does not show.
-/

namespace Precedence

namespace Expr

mutual

/-- The expression with every operator before its operands. -/
def text : Expr → String
  | empty => "<empty>"
  | number value _ => value.text
  | identifier name _ => name
  | unary operator operand _ => "(" ++ operator.symbol ++ " " ++ operand.text ++ ")"
  | binary operator left right _ =>
      "(" ++ operator.symbol ++ " " ++ left.text ++ " " ++ right.text ++ ")"
  | juxtaposed operator left right =>
      "(" ++ operator.symbol ++ "' " ++ left.text ++ " " ++ right.text ++ ")"
  | call callee arguments _ => "(call " ++ callee.text ++ argumentsText arguments ++ ")"

/-- Arguments, each behind a space. -/
def argumentsText : List Expr → String
  | [] => ""
  | e :: rest => " " ++ e.text ++ argumentsText rest

end

end Expr

end Precedence

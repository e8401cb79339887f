import Precedence.Parser.Climb
import Precedence.Scan

/-!
# Parsing

From tokens or from a text to an expression. A character that begins nothing stops a parse before
it starts, whatever else is wrong; otherwise the first fault is the one at which the parser
stopped. Given a text, that character is reported as scanning explained it; given tokens alone,
only the token that holds it is left to report.
-/

namespace Precedence

/-- The nesting allowed where no limit is given. -/
def defaultMaxDepth : Nat := 256

/-- How a parse ended, and the rules it applied, in order. -/
structure Outcome where
  result : Except Fault Expr
  dispatches : List Dispatch

/-- The whole parse of a stream, from its start. -/
def Parser.run (p : Parser) : Outcome :=
  match p.whole Progress.start with
  | .ok result s => ⟨.ok result, s.trace.reverse⟩
  | .error fault s => ⟨.error fault, s.trace.reverse⟩

/-- Parses tokens by a grammar, with an account of the rules applied. -/
def runTokens (grammar : Grammar) (maxDepth : Nat) (tokens : List Token) : Outcome :=
  match tokens.find? (·.kind = .error) with
  | some token => ⟨.error ⟨.unrecognisedToken token.text, token.start⟩, []⟩
  | none => Parser.run ⟨grammar, .ofList tokens, maxDepth⟩

def parseTokens (grammar : Grammar) (maxDepth : Nat) (tokens : List Token) : Except Fault Expr :=
  (runTokens grammar maxDepth tokens).result

/-- Parses a text of arithmetic in which expressions nest no deeper than `maxDepth`. -/
def parseWithin (maxDepth : Nat) (source : String) : Except Fault Expr :=
  match tokenize source with
  | .error fault => .error fault
  | .ok tokens => parseTokens .arithmetic maxDepth tokens

/-- Parses a text of arithmetic. -/
def parse (source : String) : Except Fault Expr := parseWithin defaultMaxDepth source

/-- Equality of two results: of expressions by value, of faults by identity. -/
def equalResults : Except Fault Expr → Except Fault Expr → Bool
  | .ok a, .ok b => a.equal b
  | .error f, .error g => f = g
  | _, _ => false

end Precedence

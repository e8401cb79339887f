import Precedence.Token

/-!
# Faults

What can be wrong with a text: a cause, which holds the piece of text it complains about, and the
place. A cause determines its sentence (`Fault.Cause.message`) and, for all but a stray
character, a piece of advice (`Fault.Cause.advice?`). The text in a sentence stands in quotation
marks and escaped; only a callee, which is a whole expression, stands bare, and so does the text
in an advice, between backquotes.
-/

namespace Precedence

namespace Fault

inductive Cause where
  /-- A character begins no lexeme. -/
  | unrecognisedToken (text : String)
  /-- A number is followed by a point without digits. -/
  | malformedNumber (text : String)
  /-- The text of a number token is no number. -/
  | numberParseError (text : String)
  /-- A token stands where an operand should begin. -/
  | noPrefixRule (text : String)
  /-- A token stands where an operator should be and means none. -/
  | noInfixRule (text : String)
  /-- The text ends where an operand should begin. -/
  | incompleteExpression
  /-- A parenthesis is not closed where it should be. -/
  | missingClosingParen (found : String)
  /-- Something other than a name is called. -/
  | notCallable (callee : String)
  /-- Arguments are not separated by single commas. -/
  | malformedArguments (found : String)
  /-- Tokens are left behind a complete expression. -/
  | unusedTokens (text : String)
  /-- Expressions nest deeper than allowed. -/
  | nestingTooDeep (limit : Nat)
deriving DecidableEq, Repr, Inhabited

namespace Cause

def name : Cause → String
  | unrecognisedToken _ => "UnrecognisedToken"
  | malformedNumber _ => "MalformedNumber"
  | numberParseError _ => "NumberParseError"
  | noPrefixRule _ => "NoPrefixRule"
  | noInfixRule _ => "NoInfixRule"
  | incompleteExpression => "IncompleteExpression"
  | missingClosingParen _ => "MissingClosingParen"
  | notCallable _ => "NotCallable"
  | malformedArguments _ => "MalformedArguments"
  | unusedTokens _ => "UnusedTokens"
  | nestingTooDeep _ => "NestingTooDeep"

def message : Cause → String
  | unrecognisedToken text => "unrecognised token: " ++ quoted text
  | malformedNumber text => "malformed number: " ++ quoted text
  | numberParseError text => "error parsing number: " ++ quoted text
  | noPrefixRule text => "no prefix rule for token " ++ quoted text
  | noInfixRule text => "no infix rule for token " ++ quoted text
  | incompleteExpression => "incomplete expression, unexpected end of input"
  | missingClosingParen found => "missing matching ')', found " ++ quoted found
  | notCallable callee => callee ++ " is not callable"
  | malformedArguments found => "malformed argument list near " ++ quoted found
  | unusedTokens text => "unused tokens following expression, starting with " ++ quoted text
  | nestingTooDeep limit => "expression nested deeper than " ++ toString limit ++ " levels"

def advice? : Cause → Option String
  | unrecognisedToken _ => none
  | malformedNumber text =>
      some ("Invalid number: `" ++ text ++ "`, a decimal point must be followed by digits")
  | numberParseError text => some ("Invalid number: `" ++ text ++ "`, is it out of range?")
  | noPrefixRule text => some ("Expected a value, found `" ++ text ++ "`")
  | noInfixRule text => some ("`" ++ text ++ "` cannot follow a complete operand")
  | incompleteExpression => some "An operator is missing its right operand"
  | missingClosingParen _ => some "Add a `)` to close the group"
  | notCallable callee => some ("Only identifiers can be called, `" ++ callee ++ "` is not one")
  | malformedArguments _ => some "Separate arguments with a single `,`"
  | unusedTokens text => some ("Unexpected `" ++ text ++ "`, did you miss an operator?")
  | nestingTooDeep limit =>
      some ("Expressions may nest at most " ++ toString limit ++ " levels deep")

/-- Does the cause lie in the characters of the text, and not in the order of its tokens? -/
def isLexical : Cause → Bool
  | unrecognisedToken _ | malformedNumber _ | numberParseError _ => true
  | _ => false

end Cause

end Fault

structure Fault where
  cause : Fault.Cause
  position : Position
deriving DecidableEq, Repr, Inhabited

namespace Fault

/-- The sentence with the place behind it. -/
def message (fault : Fault) : String :=
  fault.cause.message ++ " at " ++ fault.position.text

end Fault

end Precedence

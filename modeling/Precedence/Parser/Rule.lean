import Precedence.Binary64.Reader
import Precedence.Parser.Basic

/-!
# Applying a rule

What a rule does once its token has been read. A rule that has operands to read is given the way
to read an expression at a power, `expr`, and calls it for nothing else, so a rule never learns
the power of the expression it works for.

The arguments of a call are read one after the other for as long as a comma follows. Each round
reads at least the comma, and the loop is bounded by the tokens that remain; a round that read
nothing would end it, but there is none.
-/

namespace Precedence

namespace Parser

/-- The operator a token means. -/
def operatorOf (token : Token) : Except Fault Operator :=
  match Operator.ofKind? token.kind with
  | some operator => .ok operator
  | none => .error ⟨.noInfixRule token.text, token.start⟩

/-- A number or a name by itself. -/
def operandOf (token : Token) : Except Fault Expr :=
  match token.kind with
  | .number =>
    match Binary64.ofString? token.text with
    | some value => .ok (.number value token.start)
    | none => .error ⟨.numberParseError token.text, token.start⟩
  | .identifier => .ok (.identifier token.text token.start)
  | _ => .error ⟨.noPrefixRule token.text, token.start⟩

/-- The empty expression, if the end of the text is all there is. -/
def nothingBefore (p : Parser) (token : Token) : Except Fault Expr :=
  if p.stream.isBlank then .ok .empty else .error ⟨.incompleteExpression, token.start⟩

/-- Only a name can be called. -/
def callable (left : Expr) (token : Token) : Except Fault Unit :=
  if left.isIdentifier then .ok () else .error ⟨.notCallable left.text, token.start⟩

/-- The arguments of a call from the first on, up to the closing parenthesis. -/
def arguments (p : Parser) (argument : ParseM Expr) : ParseM (List Expr) := fun s =>
  if (p.current s).isOneOf [.comma, .closeParen] then .error (p.malformed s) s
  else match argument s with
    | .error fault t => .error fault t
    | .ok first t =>
      match (p.current t).kind with
      | .comma =>
        let u := p.advanced t
        if _h : p.remaining u < p.remaining s then
          match arguments p argument u with
          | .error fault v => .error fault v
          | .ok others v => .ok (first :: others) v
        else .ok [first] u
      | .closeParen => .ok [first] t
      | .eof => .error (p.unclosed t) t
      | _ => .error (p.malformed t) t
termination_by s => p.remaining s

/-- The arguments of a call, which may have none. -/
def argumentsOrNone (p : Parser) (argument : ParseM Expr) : ParseM (List Expr) := fun s =>
  if (p.current s).kind = .closeParen then .ok [] s else p.arguments argument s

end Parser

/-- What a rule makes of a token that begins an expression. -/
def PrefixRule.apply (rule : PrefixRule) (p : Parser) (expr : Power → ParseM Expr)
    (token : Token) : ParseM Expr :=
  match rule with
  | .operand => Parser.settle (Parser.operandOf token)
  | .endOfInput => Parser.settle (p.nothingBefore token)
  | .sign => do
    let operator ← Parser.settle (Parser.operatorOf token)
    let operand ← expr (p.grammar.operandPower token.kind)
    pure (.unary operator operand token.start)
  | .group => do
    let inner ← expr .default
    let _ ← p.close
    pure inner

/-- What a rule makes of a token that continues the expression `left`. -/
def InfixRule.apply (rule : InfixRule) (p : Parser) (expr : Power → ParseM Expr)
    (left : Expr) (token : Token) : ParseM Expr :=
  match rule with
  | .leftAssociative => do
    let operator ← Parser.settle (Parser.operatorOf token)
    let right ← expr (p.grammar.power token.kind)
    pure (.binary operator left right token.start)
  | .rightAssociative => do
    let operator ← Parser.settle (Parser.operatorOf token)
    let right ← expr (p.grammar.power token.kind).weaker
    pure (.binary operator left right token.start)
  | .juxtaposition => do
    let operator ← Parser.settle (Parser.operatorOf token)
    let right ← expr (p.grammar.power token.kind)
    pure (.juxtaposed operator left right)
  | .call => do
    let _ ← Parser.settle (Parser.callable left token)
    let arguments ← p.argumentsOrNone (expr .default)
    let _ ← p.close
    pure (.call left arguments token.start)

end Precedence

import Precedence.Parser.Rule

/-!
# Reading an expression

An expression at a power is a beginning, and then as many continuations as bind tighter than the
power (`climb`). A rule that needs an operand reads it the same way one level deeper, so the only
recursion is in the depth, and the limit on nesting bounds it: `expr` is defined by recursion on
the number of levels still allowed, its room.

What is left of the limit can also be read off the depth at which the parse stands (`exprHere`). An
operand may be read by that as well, and then nothing is handed down but the power (`exprHere_eq`).

The continuations are a loop over the tokens. Each of them reads its own token, since behind the
end of the text no rule succeeds in continuing anything; the loop is bounded by the tokens that
remain, and a round that read nothing would end it.
-/

namespace Precedence

namespace Parser

/-- One continuation of `left`, by the token that comes next. -/
def continuation (p : Parser) (expr : Power → ParseM Expr) (power : Power) (left : Expr) :
    ParseM Expr := fun s =>
  let token := p.current s
  match p.grammar.infixRule? token.kind with
  | none => .error ⟨.noInfixRule token.text, token.start⟩ (p.advanced s)
  | some rule => rule.apply p expr left token (noted (.continues token power) (p.advanced s))

/-- The expression `left` with every continuation that binds tighter than `power`. -/
def climb (p : Parser) (expr : Power → ParseM Expr) (power : Power) (left : Expr) :
    ParseM Expr := fun s =>
  if power < p.grammar.power (p.current s).kind then
    match p.continuation expr power left s with
    | .error fault t => .error fault t
    | .ok whole t =>
      if _h : p.remaining t < p.remaining s then climb p expr power whole t
      else .ok whole t
  else .ok left s
termination_by s => p.remaining s

/-- The beginning of an expression, by the token that comes next. -/
def beginning (p : Parser) (expr : Power → ParseM Expr) (power : Power) : ParseM Expr := fun s =>
  let token := p.current s
  match p.grammar.prefixRule? token.kind with
  | none => .error ⟨.noPrefixRule token.text, token.start⟩ (p.advanced s)
  | some rule => rule.apply p expr token (noted (.begins token power) (p.advanced s))

/-- An expression at a power, where `room` levels of nesting are still allowed. -/
def expr (p : Parser) : Nat → Power → ParseM Expr
  | 0, _ => p.refuse
  | room + 1, power => do
    deeper
    let left ← p.beginning (p.expr room) power
    let whole ← p.climb (p.expr room) power left
    leave
    pure whole

def room (p : Parser) (s : Progress) : Nat := p.maxDepth - s.depth

/-- An expression at a power, wherever the parse stands. -/
def exprHere (p : Parser) (power : Power) : ParseM Expr := fun s => p.expr (p.room s) power s

/-- A rule that begins an expression, applied by hand to a token. -/
def applyPrefix (p : Parser) (rule : PrefixRule) (token : Token) : ParseM Expr :=
  rule.apply p p.exprHere token

/-- A rule that continues an expression, applied by hand to a token. -/
def applyInfix (p : Parser) (rule : InfixRule) (left : Expr) (token : Token) : ParseM Expr :=
  rule.apply p p.exprHere left token

/-- One expression that reaches to the end of the text, or to the first token that marks one. -/
def whole (p : Parser) : ParseM Expr := do
  let result ← p.exprHere .default
  fun s =>
    if p.hasTokens s then
      let token := p.current s
      .error ⟨.unusedTokens token.text, token.start⟩ s
    else .ok result s

end Parser

end Precedence

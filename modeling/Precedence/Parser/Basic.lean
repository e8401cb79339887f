import Precedence.Expr.Text
import Precedence.Fault
import Precedence.Grammar
import Precedence.Stream

/-!
# The parser and its state

What a parse is given does not change while it runs: the grammar, the stream of tokens and the
limit on nesting (`Parser`). What moves is small: how many tokens have been read, how deep the
expression being read lies inside others, and the record of the rules applied (`Progress`). The
functions of this module are the only ones that move it.

A parse that fails stops where it is (`ParseM`): the state is kept, and a caller who goes on from
there sees the cursor behind the token that caused the fault and the depth that was reached.
-/

namespace Precedence

structure Parser where
  grammar : Grammar
  stream : Stream
  /-- How deep expressions may nest, the outermost counted as one. -/
  maxDepth : Nat

/-- The application of a rule to a token, inside an expression read at a power. -/
inductive Dispatch where
  | begins (token : Token) (power : Power)
  | continues (token : Token) (power : Power)
deriving DecidableEq, Repr, Inhabited

structure Progress where
  /-- The number of tokens read. -/
  cursor : Nat
  /-- The number of expressions begun and not ended. -/
  depth : Nat
  /-- The rules applied so far, the latest first. -/
  trace : List Dispatch
deriving DecidableEq, Repr, Inhabited

def Progress.start : Progress := ⟨0, 0, []⟩

/-- A step of a parse: it moves on with a result, or stops with a fault. -/
abbrev ParseM := EStateM Fault Progress

namespace Parser

/-! ## Reading tokens -/

/-- The token to be read next. Behind the last it is still the last. -/
def current (p : Parser) (s : Progress) : Token := p.stream.token s.cursor

def remaining (p : Parser) (s : Progress) : Nat := p.stream.size - s.cursor

/-- The state with the current token read. The end of the text is read once and then stays. -/
def advanced (p : Parser) (s : Progress) : Progress :=
  if s.cursor < p.stream.size then { s with cursor := s.cursor + 1 } else s

def advance (p : Parser) : ParseM Token := fun s => .ok (p.current s) (p.advanced s)

/-- Reads a token of one kind, or stops before it with a fault. -/
def expect (p : Parser) (kind : TokenKind) (fault : Fault) : ParseM Token := fun s =>
  if (p.current s).kind = kind then p.advance s else .error fault s

/-- Is there a token before the end of the text, or before a token that marks one? -/
def hasTokens (p : Parser) (s : Progress) : Bool := (p.current s).kind != .eof

theorem hasTokens_iff {p : Parser} {s : Progress} :
    p.hasTokens s = true ↔ (p.current s).kind ≠ .eof := bne_iff_ne

/-! ## Depth -/

/-- One expression more begun. -/
def deeper : ParseM Unit := fun s => .ok () { s with depth := s.depth + 1 }

/-- One expression less begun, if there is one. -/
def leave : ParseM Unit := fun s => .ok () { s with depth := s.depth - 1 }

/-- Stops at a token that lies too deep. -/
def refuse {α : Type} (p : Parser) : ParseM α := fun s =>
  .error ⟨.nestingTooDeep p.maxDepth, (p.current s).start⟩ s

/-- Begins an expression, or stops before it if it lies too deep. -/
def enter (p : Parser) : ParseM Unit := fun s =>
  if s.depth < p.maxDepth then deeper s else p.refuse s

/-! ## Records and faults -/

def noted (dispatch : Dispatch) (s : Progress) : Progress :=
  { s with trace := dispatch :: s.trace }

/-- What is already decided: no token is read for it. -/
def settle {α : Type} (decided : Except Fault α) : ParseM α := fun s =>
  match decided with
  | .ok a => .ok a s
  | .error fault => .error fault s

/-- A parenthesis that is not closed by the current token. -/
def unclosed (p : Parser) (s : Progress) : Fault :=
  ⟨.missingClosingParen (p.current s).describe, (p.current s).start⟩

/-- Arguments that do not go on as they should with the current token. -/
def malformed (p : Parser) (s : Progress) : Fault :=
  ⟨.malformedArguments (p.current s).describe, (p.current s).start⟩

/-- Reads the parenthesis that closes a group or a call. -/
def close (p : Parser) : ParseM Token := fun s => p.expect .closeParen (p.unclosed s) s

/-- Reading a token before the end leaves fewer. -/
theorem remaining_advanced_lt {p : Parser} {s : Progress} (h : s.cursor < p.stream.size) :
    p.remaining (p.advanced s) < p.remaining s := by
  simp only [remaining, advanced, if_pos h]
  omega

end Parser

end Precedence

import Precedence.Position
import Precedence.Text.Quoted

/-!
# Tokens

A token is a kind, the text it was read from, and where that text stands. Three kinds are not
written: `eof` marks the end of the text and is empty, `implicitStar` stands for a multiplication
sign nobody wrote and sits, without width, where the operand after it begins, and `error` holds a
single character that begins nothing. The kind decides how a token is parsed; the text matters
only for numbers and names, and for what a diagnostic quotes.
-/

namespace Precedence

inductive TokenKind where
  | eof
  | number
  | identifier
  | error
  | openParen
  | closeParen
  | comma
  | equals
  | notEquals
  | plus
  | dash
  | star
  | implicitStar
  | slash
  | caret
deriving DecidableEq, Repr, Inhabited

namespace TokenKind

def all : List TokenKind :=
  [eof, number, identifier, error, openParen, closeParen, comma, equals, notEquals, plus, dash,
    star, implicitStar, slash, caret]

theorem mem_all (kind : TokenKind) : kind ∈ all := by
  cases kind <;> decide

/-- The kind by name, as diagnostics and logs call it. -/
def name : TokenKind → String
  | eof => "EOF"
  | number => "Number"
  | identifier => "Identifier"
  | error => "Error"
  | openParen => "OpenParen"
  | closeParen => "CloseParen"
  | comma => "Comma"
  | equals => "Equals"
  | notEquals => "NotEquals"
  | plus => "Plus"
  | dash => "Dash"
  | star => "Star"
  | implicitStar => "ImplicitStar"
  | slash => "Slash"
  | caret => "Caret"

end TokenKind

structure Token where
  kind : TokenKind
  text : String
  span : Span
deriving DecidableEq, Repr, Inhabited

namespace Token

def start (t : Token) : Position := t.span.start

/-- The end of the text, at a place. -/
def eof (p : Position) : Token := ⟨.eof, "", .point p⟩

/-- A multiplication sign nobody wrote, before an operand at a place. -/
def implicitStar (p : Position) : Token := ⟨.implicitStar, "*", .point p⟩

/-- The token as the log shows it: what it is, the text where that says more, and the place. -/
def display (t : Token) : String :=
  match t.kind with
  | .eof => "<eof> :" ++ t.start.text
  | .implicitStar => "implicit * :" ++ t.start.text
  | kind => kind.name ++ " " ++ quoted t.text ++ " :" ++ t.start.text

/-- The token as a diagnostic names it: the end of the text has no text to show. -/
def describe (t : Token) : String :=
  match t.kind with
  | .eof => "end of input"
  | _ => t.text

def isOneOf (t : Token) (kinds : List TokenKind) : Bool :=
  kinds.contains t.kind

end Token

end Precedence

import Precedence.Token

/-!
# Token streams

A parser reads a finite row of tokens that is closed by one marking the end of the text. The row
is kept apart from its closing token, so every stream has one and reading beyond the row always
finds it. Tokens of that kind may also stand inside the row, where they are tokens like others.
-/

namespace Precedence

structure Stream where
  body : Array Token
  last : Token
  last_kind : last.kind = .eof

namespace Stream

/-- The closing token for a row that has none: at the end of the last token, or at the origin. -/
def closing (tokens : Array Token) : Token :=
  match tokens.back? with
  | some token => .eof token.span.stop
  | none => .eof .origin

theorem closing_kind (tokens : Array Token) : (closing tokens).kind = .eof := by
  unfold closing
  split <;> rfl

/-- The stream of a list of tokens. A last token that marks the end closes it; without one, a
closing token is added. -/
def ofList (tokens : List Token) : Stream :=
  let row := tokens.toArray
  match row.back? with
  | some token =>
      if h : token.kind = .eof then ⟨row.pop, token, h⟩
      else ⟨row, closing row, closing_kind row⟩
  | none => ⟨row, closing row, closing_kind row⟩

/-- The number of tokens, the closing one included. -/
def size (s : Stream) : Nat := s.body.size + 1

/-- The token at an index; behind the row, the closing one. -/
def token (s : Stream) (index : Nat) : Token := s.body[index]?.getD s.last

def isBlank (s : Stream) : Bool := s.body.isEmpty

theorem token_of_size_le {s : Stream} {index : Nat} (h : s.body.size ≤ index) :
    s.token index = s.last := by
  simp [token, Array.getElem?_eq_none h]

/-- Behind the row every token marks the end. -/
theorem kind_token_of_size_le {s : Stream} {index : Nat} (h : s.body.size ≤ index) :
    (s.token index).kind = .eof := by
  rw [token_of_size_le h, s.last_kind]

end Stream

end Precedence

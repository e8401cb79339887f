import Precedence.Cursor
import Precedence.Fault

/-!
# Scanning

Scanning turns a text into tokens and, for every character that begins nothing, a fault. Both
come in one stream in the order in which they are found, since a fault is followed by the token
that holds its character; the tokens and the faults are two views of it.

At each place the rules are tried in order and the first whose pattern claims anything wins
(`rules`). White space and comments leave nothing behind. Behind a token the white space is
passed over at once, and what then comes next decides whether a multiplication sign was meant
there (`joins`): a number followed by a letter or an opening parenthesis, a closing parenthesis
followed by one of these or by a digit. A comment in between breaks the pair.

Every step shortens the rest of the text (`length_step_lt`), which is why scanning ends.
-/

namespace Precedence

inductive Emission where
  | fault (fault : Fault)
  | token (token : Token)
deriving DecidableEq, Repr, Inhabited

namespace Emission

def token? : Emission → Option Token
  | token t => some t
  | fault _ => none

def fault? : Emission → Option Fault
  | token _ => none
  | fault f => some f

end Emission

def tokensOf (found : List Emission) : List Token := found.filterMap Emission.token?

def faultsOf (found : List Emission) : List Fault := found.filterMap Emission.fault?

/-! ## The rules -/

/-- What to do with the text a pattern claims. -/
inductive Action where
  | newline
  | ignore
  | emit (kind : TokenKind)
deriving DecidableEq, Repr

structure Rule where
  pattern : Pattern
  action : Action

/-- The lexemes of the language, the first match winning. -/
def rules : List Rule :=
  [⟨.oneOf ['\n'], .newline⟩,
    ⟨.blanks, .ignore⟩,
    ⟨.comment, .ignore⟩,
    ⟨.number, .emit .number⟩,
    ⟨.identifier, .emit .identifier⟩,
    ⟨.oneOf ['('], .emit .openParen⟩,
    ⟨.oneOf [')'], .emit .closeParen⟩,
    ⟨.oneOf [','], .emit .comma⟩,
    ⟨.oneOf ['+'], .emit .plus⟩,
    ⟨.oneOf ['-'], .emit .dash⟩,
    ⟨.oneOf ['*', '×'], .emit .star⟩,
    ⟨.oneOf ['/', '÷'], .emit .slash⟩,
    ⟨.oneOf ['^'], .emit .caret⟩,
    ⟨.notEquals, .emit .notEquals⟩,
    ⟨.oneOf ['='], .emit .equals⟩]

def ruleFor? (text : List Char) : Option Rule :=
  rules.find? fun rule => 0 < rule.pattern text

/-- Does this character, next behind a token of this kind, begin an operand to be multiplied? -/
def joins : TokenKind → Char → Bool
  | .number, c => isLetter c || c = '('
  | .closeParen, c => isLetter c || isAsciiDigit c || c = '('
  | _, _ => false

/-- The multiplication sign that stands unwritten between a token and the text ahead, if any. -/
def joint (kind : TokenKind) (ahead : Cursor) : List Emission :=
  match ahead.rest with
  | c :: _ => if joins kind c then [.token (.implicitStar ahead.position)] else []
  | [] => []

/-- Why a character begins nothing. A point that touches the end of a number was meant to go on
with it; everything else is simply not known. -/
def strayCause (last : Option Token) (position : Position) (c : Char) : Fault.Cause :=
  match last with
  | some token =>
      if c = '.' ∧ token.kind = .number ∧ token.span.stop = position then
        .malformedNumber (token.text ++ ".")
      else .unrecognisedToken (String.singleton c)
  | none => .unrecognisedToken (String.singleton c)

/-! ## One step -/

/-- What is found at the cursor, given the last token before it, and where to go on. -/
def step (last : Option Token) (c : Cursor) : List Emission × Cursor :=
  match c.rest with
  | [] => ([], c)
  | ch :: _ =>
    match ruleFor? c.rest with
    | some ⟨_, .newline⟩ => ([], c.next)
    | some ⟨pattern, .ignore⟩ => ([], c.skip (pattern c.rest))
    | some ⟨pattern, .emit kind⟩ =>
        let n := pattern c.rest
        let (text, span) := c.lexeme n
        let ahead := (c.skip n).skipSpace
        (.token ⟨kind, text, span⟩ :: joint kind ahead, ahead)
    | none =>
        ([.fault ⟨strayCause last c.position ch, c.position⟩,
          .token ⟨.error, String.singleton ch, ⟨c.position, c.next.position⟩⟩], c.next)

theorem pos_of_ruleFor? {text : List Char} {rule : Rule} (h : ruleFor? text = some rule) :
    0 < rule.pattern text := by
  simpa using List.find?_some h

/-- A step at a text that is not at its end shortens it. -/
theorem length_step_lt (last : Option Token) {c : Cursor} (h : c.rest ≠ []) :
    (step last c).2.rest.length < c.rest.length := by
  unfold step
  split
  · rename_i hnil; exact absurd hnil h
  · split
    · exact Cursor.length_next_lt h
    · rename_i hrule
      exact Cursor.length_skip_lt (pos_of_ruleFor? hrule) h
    · rename_i hrule
      exact Nat.lt_of_le_of_lt (Cursor.length_skipSpace_le _)
        (Cursor.length_skip_lt (pos_of_ruleFor? hrule) h)
    · exact Cursor.length_next_lt h

/-- The last token, once more has been found. -/
def lastToken? (last : Option Token) (found : List Emission) : Option Token :=
  (tokensOf found).getLast?.or last

/-! ## The whole text -/

/-- Everything found from the cursor to the end of the text, closed by the token that marks the
end. -/
def emissions (last : Option Token) (c : Cursor) : List Emission :=
  if _h : c.rest = [] then [.token (.eof c.position)]
  else
    let found := (step last c).1
    found ++ emissions (lastToken? last found) (step last c).2
termination_by c.rest.length
decreasing_by exact length_step_lt last _h

theorem emissions_nil {last : Option Token} {c : Cursor} (h : c.rest = []) :
    emissions last c = [.token (.eof c.position)] := by
  rw [emissions, dif_pos h]

theorem emissions_step {last : Option Token} {c : Cursor} (h : c.rest ≠ []) :
    emissions last c =
      (step last c).1 ++ emissions (lastToken? last (step last c).1) (step last c).2 := by
  rw [emissions, dif_neg h]

/-! ## Places are exact -/

/-- Every rule but the one for line feeds stays on its line. -/
theorem staysOnLine_of_mem_rules {rule : Rule} (h : rule ∈ rules) :
    rule.action = .newline ∨ rule.pattern.StaysOnLine := by
  simp only [rules, List.mem_cons, List.not_mem_nil, or_false] at h
  rcases h with rfl | rfl | rfl | rfl | rfl | rfl | rfl | rfl | rfl | rfl | rfl | rfl | rfl |
    rfl | rfl
  · exact Or.inl rfl
  · exact Or.inr (Pattern.staysOnLine_many (by decide))
  · exact Or.inr Pattern.staysOnLine_comment
  · exact Or.inr Pattern.staysOnLine_number
  · exact Or.inr Pattern.staysOnLine_identifier
  · exact Or.inr (Pattern.staysOnLine_oneOf (by decide))
  · exact Or.inr (Pattern.staysOnLine_oneOf (by decide))
  · exact Or.inr (Pattern.staysOnLine_oneOf (by decide))
  · exact Or.inr (Pattern.staysOnLine_oneOf (by decide))
  · exact Or.inr (Pattern.staysOnLine_oneOf (by decide))
  · exact Or.inr (Pattern.staysOnLine_oneOf (by decide))
  · exact Or.inr (Pattern.staysOnLine_oneOf (by decide))
  · exact Or.inr (Pattern.staysOnLine_oneOf (by decide))
  · exact Or.inr Pattern.staysOnLine_notEquals
  · exact Or.inr (Pattern.staysOnLine_oneOf (by decide))

theorem staysOnLine_of_ruleFor? {text : List Char} {rule : Rule} (h : ruleFor? text = some rule)
    (hn : rule.action ≠ .newline) : rule.pattern.StaysOnLine :=
  (staysOnLine_of_mem_rules (List.mem_of_find?_eq_some h)).resolve_left hn

/-- A step leaves the end of the text where it was, so no place is ever miscounted. -/
theorem toEnd_step (last : Option Token) (c : Cursor) : (step last c).2.toEnd = c.toEnd := by
  unfold step
  split
  · rfl
  · split
    · exact c.toEnd_next
    · rename_i hrule
      exact Cursor.toEnd_skip (staysOnLine_of_ruleFor? hrule (by simp) _)
    · rename_i hrule
      exact (Cursor.toEnd_skipSpace _).trans
        (Cursor.toEnd_skip (staysOnLine_of_ruleFor? hrule (by simp) _))
    · exact c.toEnd_next

/-- The last thing found is the token that marks the end, at the end of the text. -/
theorem getLast?_emissions (last : Option Token) (c : Cursor) :
    (emissions last c).getLast? = some (.token (.eof c.toEnd.position)) := by
  fun_induction emissions last c with
  | case1 last c h => simp [Cursor.toEnd, h]
  | case2 last c h found ih =>
    rw [List.getLast?_append, ih, toEnd_step]
    rfl

def scan (source : String) : List Emission := emissions none (.ofString source)

/-- The tokens of a text that holds no fault, or the first fault. -/
def tokenize (source : String) : Except Fault (List Token) :=
  match (faultsOf (scan source)).head? with
  | some fault => .error fault
  | none => .ok (tokensOf (scan source))

end Precedence

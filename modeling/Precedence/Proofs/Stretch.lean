import Precedence.Operator
import Precedence.Proofs.Layout

/-!
# Scanning a stretch of text

What a stretch of text is scanned into depends on what follows it, since a longer lexeme may begin
there or an operand to be multiplied. So it is said of a text with what stands behind it
(`ScansTo`), and texts that fit are put one behind the other (`ScansTo.append`). Behind an operand
that ends where it should there stands a closing parenthesis, a comma, a sign with a space before
it, or nothing (`Apart`).
-/

namespace Precedence

/-- With `rest` behind it, the text is scanned into tokens of which `Q` holds, wherever it
begins. -/
def ScansTo (text rest : List Char) (Q : List Token → Prop) : Prop :=
  ∀ p : Position, ∃ ts, Q ts ∧
    tokensFrom p (cut (text ++ rest)) = ts ++ tokensFrom (p.afterAll text) (cut rest)

/-- One token after the other, of which `Q` holds of the first and `R` of the others. -/
def Then (Q R : List Token → Prop) (ts : List Token) : Prop :=
  ∃ us vs, ts = us ++ vs ∧ Q us ∧ R vs

/-- A single token, known by its kind and text. -/
def Single (kind : TokenKind) (word : List Char) (ts : List Token) : Prop :=
  ∃ t : Token, ts = [t] ∧ t.kind = kind ∧ t.text = .ofList word

variable {c : Char} {s t rest word : List Char} {kind : TokenKind} {Q R : List Token → Prop}

theorem ScansTo.append (hs : ScansTo s (t ++ rest) Q) (ht : ScansTo t rest R) :
    ScansTo (s ++ t) rest (Then Q R) := by
  intro p
  obtain ⟨us, hus, hsplit⟩ := hs p
  obtain ⟨vs, hvs, hsplit'⟩ := ht (p.afterAll s)
  refine ⟨us ++ vs, ⟨us, vs, rfl, hus, hvs⟩, ?_⟩
  rw [List.append_assoc, hsplit, hsplit', Position.afterAll_append, List.append_assoc]

theorem ScansTo.imp (h : ScansTo s rest Q) (hQ : ∀ ts, Q ts → R ts) : ScansTo s rest R := by
  intro p
  obtain ⟨ts, hts, hsplit⟩ := h p
  exact ⟨ts, hQ ts hts, hsplit⟩

/-- A text whose tokens hold no stray character is scanned into them and the token that marks the
end, without a fault. -/
theorem ScansTo.exists_tokenize {text : String} (h : ScansTo text.toList [] Q)
    (hQ : ∀ ts, Q ts → ∀ t ∈ ts, t.kind ≠ .error) :
    ∃ ts p, Q ts ∧ tokensOf (scan text) = ts ++ [.eof p] ∧ tokenize text = .ok (ts ++ [.eof p]) := by
  obtain ⟨ts, hts, hsplit⟩ := h .origin
  have htokens : tokensOf (scan text) = ts ++ [.eof (Position.origin.afterAll text.toList)] := by
    rw [tokensOf_scan, ← List.append_nil text.toList, hsplit, cut_nil, List.append_nil]
    rfl
  have hfaults : faultsOf (scan text) = [] := by
    refine @faultsOf_eq_nil none (.ofString text) fun t ht => ?_
    change t ∈ tokensOf (scan text) at ht
    rw [htokens] at ht
    rcases List.mem_append.mp ht with ht | ht
    · exact hQ ts hts t ht
    · rw [List.mem_singleton.mp ht]
      exact nofun
  exact ⟨ts, _, hts, htokens, by rw [tokenize, hfaults, ← htokens]; rfl⟩

/-! ## What stands behind an operand -/

/-- What may stand behind an operand: it neither goes on with the operand nor is multiplied with
it. -/
structure Apart (rest : List Char) : Prop where
  ends : ∀ c ∈ rest.head?, continuesIdentifier c = false ∧ c ≠ '.'
  quiet : ∀ kind, joinsNext kind (cut rest) = false

theorem apart_nil : Apart [] :=
  ⟨nofun, fun kind => by rw [joinsNext_cut]; rfl⟩

theorem apart_cons (hc : continuesIdentifier c = false ∧ c ≠ '.') (hspace : isSpace c = false)
    (hjoins : ∀ kind, joins kind c = false) : Apart (c :: rest) := by
  refine ⟨?_, fun kind => ?_⟩
  · rintro _ ⟨⟩
    exact hc
  · rw [joinsNext_cut, List.dropWhile_cons_of_neg (by simp [hspace])]
    exact hjoins kind

theorem apart_closeParen : Apart (')' :: rest) :=
  apart_cons (by decide) (by decide) fun kind => by cases kind <;> rfl

theorem apart_comma : Apart (',' :: rest) :=
  apart_cons (by decide) (by decide) fun kind => by cases kind <;> rfl

theorem apart_symbol (operator : Operator) :
    Apart (' ' :: (operator.symbol.toList ++ rest)) := by
  refine ⟨?_, fun kind => ?_⟩
  · rintro _ ⟨⟩
    decide
  · rw [joinsNext_cut]
    cases operator <;> cases kind <;> rfl

/-! ## Lexemes -/

theorem scansTo_tokens {tail : List Char}
    (hfirst : firstPiece c (tail ++ rest) = .lexeme kind (c :: tail))
    (h : ∀ p, Q ((Piece.lexeme kind (c :: tail)).tokens p (cut rest))) :
    ScansTo (c :: tail) rest Q := by
  intro p
  have hbehind : (c :: (tail ++ rest)).drop (c :: tail).length = rest :=
    @List.drop_left _ (c :: tail) rest
  exact ⟨_, h p, by rw [List.cons_append, cut_cons, hfirst, tokensFrom, Piece.text, hbehind]⟩

theorem scansTo_lexeme {tail : List Char}
    (hfirst : firstPiece c (tail ++ rest) = .lexeme kind (c :: tail))
    (hjoins : joinsNext kind (cut rest) = false) :
    ScansTo (c :: tail) rest (Single kind (c :: tail)) := by
  refine scansTo_tokens hfirst fun p => ?_
  rw [Piece.tokens, hjoins]
  exact ⟨_, rfl, rfl, rfl⟩

/-- A closing parenthesis before an opening one, where a multiplication sign is meant. -/
theorem scansTo_joined :
    ScansTo [')'] ('(' :: rest) (Then (Single .closeParen [')']) (Single .implicitStar ['*'])) := by
  refine scansTo_tokens rfl fun p => ?_
  have hbehind : cut ('(' :: rest) = .lexeme .openParen ['('] :: cut rest := by
    rw [cut_cons]
    rfl
  rw [Piece.tokens, hbehind]
  exact ⟨_, _, rfl, ⟨_, rfl, rfl, rfl⟩, _, rfl, rfl, rfl⟩

theorem scansTo_space : ScansTo [' '] rest (· = []) := fun _ =>
  ⟨[], rfl, tokensFrom_space rfl⟩

theorem scansTo_numeral (hword : IsNumeral word) (hrest : Apart rest) :
    ScansTo word rest (Single .number word) := by
  obtain ⟨c, tail, rfl, hc⟩ := exists_cons_of_isNumeral hword
  have htake := number_append hword fun d hd =>
    ⟨not_isAsciiDigit_of_not_continuesIdentifier (hrest.ends d hd).1, (hrest.ends d hd).2⟩
  refine scansTo_lexeme ?_ (hrest.quiet _)
  rw [firstPiece, ruleFor?_digit hc]
  dsimp only
  rw [← List.cons_append, htake, List.take_left]

theorem scansTo_name (hword : isName word = true)
    (hrest : ∀ c ∈ rest.head?, continuesIdentifier c = false) :
    ScansTo word rest (Single .identifier word) := by
  cases word with
  | nil => cases hword
  | cons c tail =>
    have hc : isLetter c = true := by
      rw [isName, Bool.and_eq_true] at hword
      exact hword.1
    refine scansTo_lexeme ?_ (joinsNext_eq_false (by decide))
    rw [firstPiece, ruleFor?_letter hc]
    dsimp only
    rw [← List.cons_append, identifier_append hword hrest, List.take_left]

theorem scansTo_openParen : ScansTo ['('] rest (Single .openParen ['(']) :=
  scansTo_lexeme rfl (joinsNext_eq_false ⟨nofun, nofun⟩)

theorem scansTo_comma : ScansTo [','] rest (Single .comma [',']) :=
  scansTo_lexeme rfl (joinsNext_eq_false ⟨nofun, nofun⟩)

theorem scansTo_closeParen (hrest : Apart rest) : ScansTo [')'] rest (Single .closeParen [')']) :=
  scansTo_lexeme rfl (hrest.quiet _)

/-! ## Signs -/

/-- The kind of the token that the symbol of an operator is scanned into. -/
def Operator.written : Operator → TokenKind
  | add => .plus
  | subtract => .dash
  | multiply => .star
  | divide => .slash
  | exponent => .caret
  | equal => .equals
  | notEqual => .notEquals

theorem Operator.ofKind?_written (operator : Operator) :
    ofKind? operator.written = some operator := by
  cases operator <;> rfl

theorem scansTo_symbol (operator : Operator) :
    ScansTo operator.symbol.toList rest (Single operator.written operator.symbol.toList) := by
  cases operator <;> exact scansTo_lexeme rfl (joinsNext_eq_false ⟨nofun, nofun⟩)

end Precedence

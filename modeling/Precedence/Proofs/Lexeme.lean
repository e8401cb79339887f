import Precedence.Scan

/-!
# What the first character decides

Letters, digits and white space are told apart by their first character, whatever stands behind it,
and no sign is one of them. So the rule for a text that begins with one of these is known from that
character alone, and what decides about a multiplication sign nobody wrote, which looks at a single
character, agrees with the kind of the lexeme that begins there (`joins_eq`).
-/

namespace Precedence

variable {c : Char} {rest : List Char}

/-! ## Characters -/

theorem not_isLetter_of_toNat_lt (h : c.toNat < 65) : isLetter c = false := by
  have hlow : ∀ r ∈ letterRanges, 65 ≤ r.1 := by decide +kernel
  refine Bool.eq_false_iff.mpr fun hc => ?_
  obtain ⟨r, hr, hle, -⟩ := isLetter_iff.mp hc
  have := hlow r hr
  omega

theorem not_isLetter_of_isAsciiDigit (h : isAsciiDigit c = true) : isLetter c = false :=
  not_isLetter_of_toNat_lt (by have := (isAsciiDigit_iff.mp h).2; omega)

theorem isBlank_iff : isBlank c = true ↔
    c = ' ' ∨ c = '\t' ∨ c = '\r' ∨ c = '\x0b' ∨ c = '\x0c' := by
  simp [isBlank, or_assoc]

theorem not_isBlank_of_isAsciiDigit (h : isAsciiDigit c = true) : isBlank c = false := by
  refine Bool.eq_false_iff.mpr fun hc => ?_
  rcases isBlank_iff.mp hc with rfl | rfl | rfl | rfl | rfl <;> exact absurd h (by decide)

theorem not_isBlank_of_isLetter (h : isLetter c = true) : isBlank c = false := by
  refine Bool.eq_false_iff.mpr fun hc => ?_
  rcases isBlank_iff.mp hc with rfl | rfl | rfl | rfl | rfl <;> exact absurd h (by decide)

/-! ## Patterns -/

namespace Pattern

theorem many_pos {p : Char → Bool} : 0 < many p (c :: rest) ↔ p c = true := by
  by_cases hc : p c = true <;> simp [many, hc]

theorem oneOf_pos {choices : List Char} : 0 < oneOf choices (c :: rest) ↔ c ∈ choices := by
  by_cases hc : c ∈ choices <;> simp [oneOf, hc]

theorem comment_pos : 0 < comment (c :: rest) ↔ c = '#' := by
  by_cases hc : c = '#'
  · simp only [comment, hc, iff_true]
    omega
  · simp [comment, hc]

theorem number_pos : 0 < number (c :: rest) ↔ isAsciiDigit c = true := by
  rw [← @many_pos c rest]
  unfold number
  dsimp only
  repeat' split
  all_goals omega

theorem identifier_pos : 0 < identifier (c :: rest) ↔ isLetter c = true := by
  by_cases hc : isLetter c = true
  · simp only [identifier, hc, if_true, iff_true]
    omega
  · simp [identifier, hc]

end Pattern

/-! ## Numerals -/

/-- One digit or more. -/
def IsDigits (text : List Char) : Prop := text ≠ [] ∧ ∀ c ∈ text, isAsciiDigit c = true

/-- A number as it is written: digits, with a point and digits behind them or without. -/
inductive IsNumeral : List Char → Prop
  | whole {whole} (h : IsDigits whole) : IsNumeral whole
  | point {whole places} (h : IsDigits whole) (hplaces : IsDigits places) :
      IsNumeral (whole ++ '.' :: places)

theorem exists_cons_of_isNumeral {text : List Char} (h : IsNumeral text) :
    ∃ c rest, text = c :: rest ∧ isAsciiDigit c = true := by
  cases h with
  | whole h =>
    obtain ⟨c, rest, rfl⟩ := List.exists_cons_of_ne_nil h.1
    exact ⟨c, rest, rfl, h.2 c (.head _)⟩
  | point h _ =>
    obtain ⟨c, rest, rfl⟩ := List.exists_cons_of_ne_nil h.1
    exact ⟨c, _, rfl, h.2 c (.head _)⟩

theorem isDigits_take_many {text : List Char} (h : Pattern.many isAsciiDigit text ≠ 0) :
    IsDigits (text.take (Pattern.many isAsciiDigit text)) := by
  rw [Pattern.take_many]
  exact ⟨fun hempty => h (by rw [Pattern.many, hempty]; rfl),
    List.all_eq_true.mp List.all_takeWhile⟩

/-- What the pattern for numbers takes is a numeral. -/
theorem isNumeral_take_number {text : List Char} (h : 0 < Pattern.number text) :
    IsNumeral (text.take (Pattern.number text)) := by
  unfold Pattern.number at h ⊢
  dsimp only at h ⊢
  split at h
  · cases h
  rename_i hwhole
  rw [if_neg hwhole]
  have hdigits := isDigits_take_many hwhole
  split
  · rename_i rest hrest
    split
    · exact .whole hdigits
    · rename_i hplaces
      rw [Nat.add_assoc, List.take_add, hrest, Nat.add_comm 1, List.take_succ_cons]
      exact .point hdigits (isDigits_take_many hplaces)
  · exact .whole hdigits

/-! ## Lexemes are as long as they can be -/

theorem not_isAsciiDigit_of_not_continuesIdentifier (h : continuesIdentifier c = false) :
    isAsciiDigit c = false := by
  refine Bool.eq_false_iff.mpr fun hd => ?_
  simp [continuesIdentifier, isDecimalDigit_of_isAsciiDigit hd] at h

theorem many_append {p : Char → Bool} {text : List Char} (h : ∀ c ∈ text, p c = true)
    (hrest : ∀ c ∈ rest.head?, p c = false) : Pattern.many p (text ++ rest) = text.length := by
  have hnone : rest.takeWhile p = [] := by
    cases rest with
    | nil => rfl
    | cons c rest => rw [List.takeWhile_cons_of_neg (by simp [hrest c rfl])]
  rw [Pattern.many, List.takeWhile_append_of_pos h, hnone, List.append_nil]

/-- A numeral is taken whole, if what follows does not go on with it. -/
theorem number_append {text : List Char} (h : IsNumeral text)
    (hrest : ∀ c ∈ rest.head?, isAsciiDigit c = false ∧ c ≠ '.') :
    Pattern.number (text ++ rest) = text.length := by
  have hdigits : ∀ c ∈ rest.head?, isAsciiDigit c = false := fun c hc => (hrest c hc).1
  cases h with
  | whole h =>
    have hwhole := many_append h.2 hdigits
    have hne : text.length ≠ 0 := fun hzero => h.1 (List.eq_nil_of_length_eq_zero hzero)
    unfold Pattern.number
    dsimp only
    rw [hwhole, if_neg hne, List.drop_left]
    split
    · rename_i places
      exact absurd rfl (hrest '.' rfl).2
    · rfl
  | @point whole places h hplaces =>
    have hwhole : Pattern.many isAsciiDigit (whole ++ ('.' :: places ++ rest)) = whole.length :=
      many_append h.2 (by rintro _ ⟨⟩; decide)
    have hfraction := many_append hplaces.2 hdigits
    have hne : whole.length ≠ 0 := fun hzero => h.1 (List.eq_nil_of_length_eq_zero hzero)
    have hne' : places.length ≠ 0 := fun hzero => hplaces.1 (List.eq_nil_of_length_eq_zero hzero)
    unfold Pattern.number
    dsimp only
    rw [List.append_assoc, hwhole, if_neg hne, List.drop_left]
    simp only [List.cons_append, hfraction, if_neg hne', List.length_append, List.length_cons]
    omega

/-- A letter, and behind it letters, digits of any script and underscores. -/
def isName : List Char → Bool
  | c :: rest => isLetter c && rest.all continuesIdentifier
  | [] => false

/-- A name is taken whole, if what follows does not go on with it. -/
theorem identifier_append {text : List Char} (h : isName text = true)
    (hrest : ∀ c ∈ rest.head?, continuesIdentifier c = false) :
    Pattern.identifier (text ++ rest) = text.length := by
  cases text with
  | nil => cases h
  | cons c text =>
    rw [isName, Bool.and_eq_true, List.all_eq_true] at h
    rw [List.cons_append, Pattern.identifier, if_pos h.1, many_append h.2 hrest, List.length_cons,
      Nat.add_comm]

/-! ## Rules -/

/-- The pattern of the lexemes of a kind, if there are any. -/
def TokenKind.pattern? (kind : TokenKind) : Option Pattern :=
  (rules.find? fun rule => rule.action = .emit kind).map Rule.pattern

/-- No two rules give lexemes of one kind. -/
theorem pattern?_of_mem_rules {pattern : Pattern} {kind : TokenKind}
    (h : ⟨pattern, .emit kind⟩ ∈ rules) : kind.pattern? = some pattern := by
  simp only [rules, List.mem_cons, Rule.mk.injEq, reduceCtorEq, and_false, Action.emit.injEq,
    List.not_mem_nil, or_false, false_or] at h
  rcases h with ⟨rfl, rfl⟩ | ⟨rfl, rfl⟩ | ⟨rfl, rfl⟩ | ⟨rfl, rfl⟩ | ⟨rfl, rfl⟩ | ⟨rfl, rfl⟩ |
    ⟨rfl, rfl⟩ | ⟨rfl, rfl⟩ | ⟨rfl, rfl⟩ | ⟨rfl, rfl⟩ | ⟨rfl, rfl⟩ | ⟨rfl, rfl⟩ <;> rfl

theorem ruleFor?_newline : ruleFor? ('\n' :: rest) = some ⟨.oneOf ['\n'], .newline⟩ := by
  simp [ruleFor?, rules, Pattern.oneOf]

theorem ruleFor?_blank (h : isBlank c = true) :
    ruleFor? (c :: rest) = some ⟨.blanks, .ignore⟩ := by
  have hn : c ≠ '\n' := by rintro rfl; exact absurd h (by decide)
  simp [ruleFor?, rules, Pattern.blanks, Pattern.oneOf_pos, Pattern.many_pos, hn, h]

theorem ruleFor?_digit (h : isAsciiDigit c = true) :
    ruleFor? (c :: rest) = some ⟨.number, .emit .number⟩ := by
  have hn : c ≠ '\n' := by rintro rfl; exact absurd h (by decide)
  have hc : c ≠ '#' := by rintro rfl; exact absurd h (by decide)
  simp [ruleFor?, rules, Pattern.blanks, Pattern.oneOf_pos, Pattern.many_pos, Pattern.comment_pos,
    Pattern.number_pos, not_isBlank_of_isAsciiDigit h, hn, hc, h]

theorem ruleFor?_letter (h : isLetter c = true) :
    ruleFor? (c :: rest) = some ⟨.identifier, .emit .identifier⟩ := by
  have hn : c ≠ '\n' := by rintro rfl; exact absurd h (by decide)
  have hc : c ≠ '#' := by rintro rfl; exact absurd h (by decide)
  have hd : isAsciiDigit c = false := Bool.eq_false_iff.mpr fun hd =>
    absurd (not_isLetter_of_isAsciiDigit hd) (by simp [h])
  simp [ruleFor?, rules, Pattern.blanks, Pattern.oneOf_pos, Pattern.many_pos, Pattern.comment_pos,
    Pattern.number_pos, Pattern.identifier_pos, not_isBlank_of_isLetter h, hn, hc, hd, h]

theorem ruleFor?_openParen : ruleFor? ('(' :: rest) = some ⟨.oneOf ['('], .emit .openParen⟩ := by
  rfl

/-- The lexemes that can be multiplied without a sign begin with characters of their own. -/
theorem head_of_ruleFor? {pattern : Pattern} {kind : TokenKind}
    (h : ruleFor? (c :: rest) = some ⟨pattern, .emit kind⟩) :
    (kind = .number → isAsciiDigit c = true) ∧ (kind = .identifier → isLetter c = true) ∧
      (kind = .openParen → c = '(') := by
  have hpos : 0 < pattern (c :: rest) := pos_of_ruleFor? h
  have hpattern := pattern?_of_mem_rules (List.mem_of_find?_eq_some h)
  refine ⟨?_, ?_, ?_⟩
  · rintro rfl
    cases hpattern
    exact Pattern.number_pos.mp hpos
  · rintro rfl
    cases hpattern
    exact Pattern.identifier_pos.mp hpos
  · rintro rfl
    obtain rfl : .oneOf ['('] = pattern := Option.some.inj hpattern
    exact List.mem_singleton.mp (Pattern.oneOf_pos.mp hpos)

/-- Can a lexeme of the second kind be multiplied with one of the first, no sign between them? -/
def TokenKind.multiplies : TokenKind → TokenKind → Bool
  | .number, next => next = .identifier || next = .openParen
  | .closeParen, next => next = .identifier || next = .number || next = .openParen
  | _, _ => false

/-- The token ends an operand behind which a multiplication sign may be meant. -/
def Token.EndsOperand (t : Token) : Prop := t.kind = .number ∨ t.kind = .closeParen

theorem TokenKind.endsOperand_of_multiplies {kind next : TokenKind}
    (h : kind.multiplies next = true) : kind = .number ∨ kind = .closeParen := by
  cases kind <;> first | cases h | decide

/-- The character ahead announces the lexeme that begins with it. -/
theorem joins_eq {kind : TokenKind} :
    joins kind c = match ruleFor? (c :: rest) with
      | some ⟨_, .emit next⟩ => kind.multiplies next
      | _ => false := by
  by_cases hl : isLetter c = true
  · rw [ruleFor?_letter hl]
    cases kind <;> simp [joins, TokenKind.multiplies, hl]
  by_cases hd : isAsciiDigit c = true
  · have hparen : c ≠ '(' := by rintro rfl; exact absurd hd (by decide)
    rw [ruleFor?_digit hd]
    cases kind <;> simp [joins, TokenKind.multiplies, hl, hd, hparen]
  by_cases hparen : c = '('
  · subst hparen
    rw [ruleFor?_openParen]
    cases kind <;> rfl
  have hjoins : joins kind c = false := by cases kind <;> simp [joins, hl, hd, hparen]
  rw [hjoins]
  split
  · rename_i next hrule
    obtain ⟨hnumber, hname, hopen⟩ := head_of_ruleFor? hrule
    have hne : next ≠ .number ∧ next ≠ .identifier ∧ next ≠ .openParen :=
      ⟨fun h => hd (hnumber h), fun h => hl (hname h), fun h => hparen (hopen h)⟩
    cases kind <;> simp [TokenKind.multiplies, hne]
  · rfl

end Precedence

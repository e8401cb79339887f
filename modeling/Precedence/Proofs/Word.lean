import Precedence.Proofs.Lexeme

/-!
# The words of each kind

Which words the lexemes of a kind are made of, said without patterns (`TokenKind.IsWord`). The
pattern of a kind takes a word of that kind, and of the words a text begins with it takes the longest
(`takesLongest_of_ruleFor?`). No two kinds have words that a text can begin with at once, so where a
word begins there is only one rule to apply (`ruleFor?_of_isWord`).
-/

namespace Precedence

variable {c : Char} {word rest text : List Char} {kind : TokenKind} {pattern : Pattern}

/-- The words of a kind. The kinds that are not written have none, and what is not known is no
word. -/
def TokenKind.IsWord : TokenKind → List Char → Prop
  | .number, word => IsNumeral word
  | .identifier, word => isName word = true
  | .openParen, word => word = ['(']
  | .closeParen, word => word = [')']
  | .comma, word => word = [',']
  | .plus, word => word = ['+']
  | .dash, word => word = ['-']
  | .star, word => word = ['*'] ∨ word = ['×']
  | .slash, word => word = ['/'] ∨ word = ['÷']
  | .caret, word => word = ['^']
  | .notEquals, word => word = ['!', '='] ∨ word = ['≠']
  | .equals, word => word = ['=']
  | .eof, _ | .error, _ | .implicitStar, _ => False

/-! ## Patterns take the longest word -/

/-- What the pattern claims is a word, and no word at the front of a text is longer. -/
structure Pattern.TakesLongest (pattern : Pattern) (IsWord : List Char → Prop) : Prop where
  isWord : ∀ {text}, 0 < pattern text → IsWord (text.take (pattern text))
  length_le : ∀ {word}, IsWord word → ∀ rest, word.length ≤ pattern (word ++ rest)

theorem length_le_many {p : Char → Bool} (h : ∀ c ∈ text, p c = true) :
    text.length ≤ Pattern.many p (text ++ rest) := by
  rw [Pattern.many, List.takeWhile_append_of_pos h, List.length_append]
  exact Nat.le_add_right _ _

theorem many_le_number : Pattern.many isAsciiDigit text ≤ Pattern.number text := by
  unfold Pattern.number
  dsimp only
  repeat' split
  all_goals omega

theorem takesLongest_number : Pattern.number.TakesLongest IsNumeral where
  isWord := isNumeral_take_number
  length_le := by
    intro word h rest
    cases h with
    | whole h => exact Nat.le_trans (length_le_many h.2) many_le_number
    | @point whole places h hplaces =>
      have hwhole : Pattern.many isAsciiDigit (whole ++ ('.' :: places ++ rest)) = whole.length :=
        many_append h.2 (by rintro _ ⟨⟩; decide)
      have hlength := @length_le_many rest _ _ hplaces.2
      have hpos : 0 < whole.length := List.length_pos_iff.mpr h.1
      have hpos' : 0 < places.length := List.length_pos_iff.mpr hplaces.1
      unfold Pattern.number
      dsimp only
      rw [List.append_assoc, hwhole, if_neg (by omega), List.drop_left]
      simp only [List.cons_append, List.length_append, List.length_cons]
      rw [if_neg (by omega)]
      omega

theorem takesLongest_identifier : Pattern.identifier.TakesLongest (isName · = true) where
  isWord := by
    intro text h
    cases text with
    | nil => cases h
    | cons c rest =>
      have hc := Pattern.identifier_pos.mp h
      rw [Pattern.identifier, if_pos hc, Nat.add_comm, List.take_succ_cons, Pattern.take_many]
      simp [isName, hc]
  length_le := by
    intro word h rest
    cases word with
    | nil => cases h
    | cons c word =>
      rw [isName, Bool.and_eq_true, List.all_eq_true] at h
      have hlength := @length_le_many rest _ _ h.2
      rw [List.cons_append, Pattern.identifier, if_pos h.1, List.length_cons]
      omega

theorem takesLongest_oneOf {choices : List Char} {IsWord : List Char → Prop}
    (h : ∀ word, IsWord word ↔ ∃ c ∈ choices, word = [c]) :
    (Pattern.oneOf choices).TakesLongest IsWord where
  isWord := by
    intro text hpos
    cases text with
    | nil => cases hpos
    | cons c rest =>
      have hc := Pattern.oneOf_pos.mp hpos
      have hone : Pattern.oneOf choices (c :: rest) = 1 := by simp [Pattern.oneOf, hc]
      rw [hone]
      exact (h _).mpr ⟨c, hc, rfl⟩
  length_le := by
    intro word hword rest
    obtain ⟨c, hc, rfl⟩ := (h word).mp hword
    exact Pattern.oneOf_pos.mpr hc

theorem takesLongest_notEquals : Pattern.notEquals.TakesLongest TokenKind.notEquals.IsWord where
  isWord := by
    intro text hpos
    unfold Pattern.notEquals at hpos ⊢
    split at hpos
    · exact .inl rfl
    · exact .inr rfl
    · cases hpos
  length_le := by
    rintro word (rfl | rfl) rest
    · exact Nat.le_refl 2
    · exact Nat.le_refl 1

theorem takesLongest_of_pattern? (h : kind.pattern? = some pattern) :
    pattern.TakesLongest kind.IsWord := by
  cases kind with
  | eof | error | implicitStar => cases h
  | number => cases h; exact takesLongest_number
  | identifier => cases h; exact takesLongest_identifier
  | notEquals => cases h; exact takesLongest_notEquals
  | openParen | closeParen | comma | plus | dash | star | slash | caret | equals =>
    obtain rfl := Option.some.inj h
    exact takesLongest_oneOf fun word => by simp [TokenKind.IsWord]

theorem takesLongest_of_ruleFor? (h : ruleFor? text = some ⟨pattern, .emit kind⟩) :
    pattern.TakesLongest kind.IsWord :=
  takesLongest_of_pattern? (pattern?_of_mem_rules (List.mem_of_find?_eq_some h))

/-! ## One rule for every word -/

/-- The sign lies far behind the first letters, so that it is none is settled by the kernel. -/
theorem ruleFor?_unequal : ruleFor? ('≠' :: rest) = some ⟨.notEquals, .emit .notEquals⟩ := by
  have hletter : isLetter '≠' = false := by decide +kernel
  have hdigit : isAsciiDigit '≠' = false := by decide
  have hblank : isBlank '≠' = false := by decide
  simp [ruleFor?, rules, Pattern.blanks, Pattern.oneOf_pos, Pattern.many_pos, Pattern.comment_pos,
    Pattern.number_pos, Pattern.identifier_pos, Pattern.notEquals, hletter, hdigit, hblank]

/-- Where a word begins, the rule of its kind is the one to apply. -/
theorem ruleFor?_of_isWord (h : kind.IsWord word) (rest : List Char) :
    ∃ pattern, ruleFor? (word ++ rest) = some ⟨pattern, .emit kind⟩ := by
  cases kind with
  | eof | error | implicitStar => cases h
  | number =>
    obtain ⟨c, tail, rfl, hc⟩ := exists_cons_of_isNumeral h
    exact ⟨_, ruleFor?_digit hc⟩
  | identifier =>
    cases word with
    | nil => cases h
    | cons c tail =>
      rw [TokenKind.IsWord, isName, Bool.and_eq_true] at h
      exact ⟨_, ruleFor?_letter h.1⟩
  | star | slash =>
    rcases h with rfl | rfl <;> exact ⟨_, rfl⟩
  | notEquals =>
    rcases h with rfl | rfl
    · exact ⟨_, rfl⟩
    · exact ⟨_, ruleFor?_unequal⟩
  | openParen | closeParen | comma | plus | dash | caret | equals =>
    obtain rfl := h
    exact ⟨_, rfl⟩

/-- No word is of two kinds. -/
theorem kind_unique_of_isWord {k : TokenKind} (h : kind.IsWord word) (h' : k.IsWord word) :
    kind = k := by
  obtain ⟨_, hrule⟩ := ruleFor?_of_isWord h []
  obtain ⟨_, hrule'⟩ := ruleFor?_of_isWord h' []
  rw [hrule] at hrule'
  cases hrule'
  rfl

theorem ruleFor?_comment : ruleFor? ('#' :: rest) = some ⟨.comment, .ignore⟩ := by
  simp [ruleFor?, rules, Pattern.blanks, Pattern.oneOf_pos, Pattern.many_pos, Pattern.comment_pos,
    isBlank]

/-- What is passed over begins with white space or with a number sign. -/
theorem head_of_ruleFor?_ignore (h : ruleFor? (c :: rest) = some ⟨pattern, .ignore⟩) :
    isBlank c = true ∧ pattern = .blanks ∨ c = '#' ∧ pattern = .comment := by
  have hpos : 0 < pattern (c :: rest) := pos_of_ruleFor? h
  have hmem := List.mem_of_find?_eq_some h
  simp only [rules, List.mem_cons, Rule.mk.injEq, reduceCtorEq, and_false, and_true, or_false,
    List.not_mem_nil, false_or] at hmem
  rcases hmem with rfl | rfl
  · exact .inl ⟨Pattern.many_pos.mp hpos, rfl⟩
  · exact .inr ⟨Pattern.comment_pos.mp hpos, rfl⟩

theorem eq_newline_of_ruleFor? (h : ruleFor? (c :: rest) = some ⟨pattern, .newline⟩) :
    c = '\n' := by
  have hpos : 0 < pattern (c :: rest) := pos_of_ruleFor? h
  have hmem := List.mem_of_find?_eq_some h
  simp only [rules, List.mem_cons, Rule.mk.injEq, reduceCtorEq, and_false, and_true, or_false,
    List.not_mem_nil] at hmem
  subst hmem
  exact List.mem_singleton.mp (Pattern.oneOf_pos.mp hpos)

/-- A word begins with no white space and with no number sign. -/
theorem exists_cons_of_isWord (h : kind.IsWord word) :
    ∃ c tail, word = c :: tail ∧ isSpace c = false ∧ c ≠ '#' := by
  obtain ⟨pattern, hrule⟩ := ruleFor?_of_isWord h []
  rw [List.append_nil] at hrule
  cases word with
  | nil => cases hrule
  | cons c tail =>
    refine ⟨c, tail, rfl, Bool.eq_false_iff.mpr fun hspace => ?_, ?_⟩
    · rw [isSpace, Bool.or_eq_true, decide_eq_true_eq] at hspace
      rcases hspace with hblank | rfl
      · rw [ruleFor?_blank hblank] at hrule
        cases hrule
      · rw [ruleFor?_newline] at hrule
        cases hrule
    · rintro rfl
      rw [ruleFor?_comment] at hrule
      cases hrule

/-- There is neither a space nor a number sign in a word. -/
theorem ne_of_isWord (h : kind.IsWord word) : ∀ c ∈ word, c ≠ ' ' ∧ c ≠ '#' := by
  have hdigit : ∀ c, isAsciiDigit c = true → c ≠ ' ' ∧ c ≠ '#' := fun c h =>
    ⟨by rintro rfl; exact absurd h (by decide), by rintro rfl; exact absurd h (by decide)⟩
  have hname : ∀ c, continuesIdentifier c = true → c ≠ ' ' ∧ c ≠ '#' := fun c h =>
    ⟨by rintro rfl; exact absurd h (by decide), by rintro rfl; exact absurd h (by decide)⟩
  cases kind with
  | number =>
    cases h with
    | whole h => exact fun c hc => hdigit c (h.2 c hc)
    | point h hplaces =>
      exact List.forall_mem_append.mpr ⟨fun c hc => hdigit c (h.2 c hc),
        List.forall_mem_cons.mpr ⟨by decide, fun c hc => hdigit c (hplaces.2 c hc)⟩⟩
  | identifier =>
    cases word with
    | nil => exact nofun
    | cons first tail =>
      obtain ⟨hfirst, htail⟩ := Bool.and_eq_true_iff.mp h
      exact List.forall_mem_cons.mpr ⟨hname first (by simp [continuesIdentifier, hfirst]),
        fun c hc => hname c (List.all_eq_true.mp htail c hc)⟩
  | star | slash | notEquals => rcases h with rfl | rfl <;> simp
  | openParen | closeParen | comma | plus | dash | caret | equals =>
    obtain rfl := h
    exact List.forall_mem_singleton.mpr (by decide)
  | eof | error | implicitStar => cases h

end Precedence

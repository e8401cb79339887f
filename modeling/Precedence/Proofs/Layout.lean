import Mathlib.Data.List.Chain
import Mathlib.Data.List.Permutation
import Precedence.Proofs.Pieces

/-!
# Where the tokens of a text stand

Every token and every fault comes from a piece of the text and stands where the piece does
(`mem_tokensFrom`, `mem_faultsFrom`). A multiplication sign nobody wrote comes from the operand
before it and stands where the one behind it begins: there is a token before it that ends an operand
(`isChain_tokensFrom`), and its place is that of a lexeme (`exists_lexemeAt_afterWhite`).
-/

namespace Precedence

variable {p : Position} {c : Char} {rest text word : List Char} {pieces before behind : List Piece}
  {kind : TokenKind} {t : Token}

/-! ## Pieces and rules -/

theorem mem_cut {piece : Piece} (h : cut text = before ++ piece :: behind) : piece ∈ cut text := by
  rw [h]
  exact List.mem_append_cons_self

/-- A piece of a text is the first of what is left of the text there. -/
theorem exists_firstPiece_of_mem_cut {piece : Piece} (h : piece ∈ cut text) :
    ∃ c rest, firstPiece c rest = piece := by
  fun_induction cut text with
  | case1 => simp at h
  | case2 c rest ih =>
    rcases List.mem_cons.mp h with rfl | h
    · exact ⟨c, rest, rfl⟩
    · exact ih h

/-- A lexeme is what the pattern of its kind takes from a text. -/
theorem exists_pattern_of_lexeme (h : .lexeme kind word ∈ cut text) :
    ∃ pattern rest, kind.pattern? = some pattern ∧ 0 < pattern rest ∧
      word = rest.take (pattern rest) := by
  obtain ⟨c, rest, h⟩ := exists_firstPiece_of_mem_cut h
  unfold firstPiece at h
  cases hrule : ruleFor? (c :: rest) with
  | none => rw [hrule] at h; cases h
  | some rule =>
    obtain ⟨pattern, action⟩ := rule
    rw [hrule] at h
    cases action <;> cases h
    exact ⟨pattern, c :: rest, pattern?_of_mem_rules (List.mem_of_find?_eq_some hrule),
      pos_of_ruleFor? hrule, rfl⟩

/-- No rule gives a token that is not written. -/
theorem kind_of_lexeme (h : .lexeme kind word ∈ cut text) :
    kind ≠ .eof ∧ kind ≠ .implicitStar ∧ kind ≠ .error := by
  obtain ⟨pattern, rest, hpattern, -, -⟩ := exists_pattern_of_lexeme h
  refine ⟨?_, ?_, ?_⟩ <;> rintro rfl <;> cases hpattern

theorem isNumeral_of_lexeme (h : .lexeme .number word ∈ cut text) : IsNumeral word := by
  obtain ⟨pattern, rest, hpattern, hpos, rfl⟩ := exists_pattern_of_lexeme h
  cases hpattern
  exact isNumeral_take_number hpos

theorem eq_of_openParen_lexeme (h : .lexeme .openParen word ∈ cut text) : word = ['('] := by
  obtain ⟨pattern, rest, hpattern, hpos, rfl⟩ := exists_pattern_of_lexeme h
  obtain rfl : .oneOf ['('] = pattern := Option.some.inj hpattern
  cases rest with
  | nil => cases hpos
  | cons c rest =>
    obtain rfl := List.mem_singleton.mp (Pattern.oneOf_pos.mp hpos)
    rfl

/-! ## Tokens and faults by their pieces -/

theorem mem_tokensFrom : t ∈ tokensFrom p pieces ↔ t = .eof (p.afterAll (textOf pieces)) ∨
    ∃ before piece behind, pieces = before ++ piece :: behind ∧
      t ∈ piece.tokens (p.afterAll (textOf before)) behind := by
  induction pieces generalizing p with
  | nil => simp [tokensFrom]
  | cons piece rest ih =>
    rw [tokensFrom, List.mem_append, ih, textOf_cons, Position.afterAll_append]
    constructor
    · rintro (h | h | ⟨before, next, behind, rfl, h⟩)
      · exact .inr ⟨[], piece, rest, rfl, h⟩
      · exact .inl h
      · refine .inr ⟨piece :: before, next, behind, rfl, ?_⟩
        rwa [textOf_cons, Position.afterAll_append]
    · rintro (h | ⟨before, next, behind, heq, h⟩)
      · exact .inr (.inl h)
      · cases before with
        | nil => cases heq; exact .inl h
        | cons first before =>
          cases heq
          rw [textOf_cons, Position.afterAll_append] at h
          exact .inr (.inr ⟨before, next, behind, rfl, h⟩)

/-- A fault is that of a stray character, and the piece before it has its say. -/
theorem mem_faultsFrom {last : Option Piece} {fault : Fault}
    (h : fault ∈ faultsFrom last p pieces) :
    ∃ before c behind, pieces = before ++ .stray c :: behind ∧
      fault = ⟨Piece.strayCause (before.getLast?.or last) c, p.afterAll (textOf before)⟩ := by
  induction pieces generalizing p last with
  | nil => cases h
  | cons piece rest ih =>
    rcases List.mem_append.mp h with h | h
    · cases piece with
      | stray c =>
        obtain rfl := List.mem_singleton.mp h
        exact ⟨[], c, rest, rfl, rfl⟩
      | gap | lexeme => cases h
    · obtain ⟨before, c, behind, rfl, rfl⟩ := ih h
      refine ⟨piece :: before, c, behind, rfl, ?_⟩
      rw [getLast?_cons_or, textOf_cons, Position.afterAll_append]

/-- A fault has a token of its own and stands where that begins. -/
theorem positions_faultsOf (last : Option Token) (c : Cursor) :
    (faultsOf (emissions last c)).map Fault.position =
      ((tokensOf (emissions last c)).filter (·.kind = .error)).map Token.start := by
  fun_induction emissions last c with
  | case1 last c h => rfl
  | case2 last c h found ih =>
    obtain ⟨text, p⟩ := c
    obtain ⟨c, rest, rfl⟩ := List.exists_cons_of_ne_nil h
    rw [faultsOf_append, tokensOf_append, List.filter_append, List.map_append, List.map_append, ih]
    refine congrArg (· ++ _) ?_
    have hstep := step_cons last c rest p
    dsimp only [found]
    cases hfirst : firstPiece c rest with
    | gap text | stray d =>
      rw [hfirst] at hstep
      rw [hstep]
      rfl
    | lexeme kind text =>
      have hmem : .lexeme kind text ∈ cut (c :: rest) := by rw [cut_cons, hfirst]; exact .head _
      have hkind := (kind_of_lexeme hmem).2.2
      rw [hfirst] at hstep
      rw [hstep, faultsOf_lexemeEmissions, tokensOf_lexemeEmissions, Piece.tokens,
        List.filter_cons_of_neg (by simpa using hkind)]
      split <;> rfl

theorem faultsOf_eq_nil {last : Option Token} {c : Cursor}
    (h : ∀ t ∈ tokensOf (emissions last c), t.kind ≠ .error) :
    faultsOf (emissions last c) = [] := by
  have hnone : (tokensOf (emissions last c)).filter (·.kind = .error) = [] :=
    List.filter_eq_nil_iff.mpr fun t ht => by simpa using h t ht
  have hpositions := positions_faultsOf last c
  rw [hnone] at hpositions
  exact List.map_eq_nil_iff.mp hpositions

/-- Without a fault, no token holds a stray character. -/
theorem kind_ne_error_of_faultsOf_eq_nil {last : Option Token} {c : Cursor}
    (h : faultsOf (emissions last c) = []) : ∀ t ∈ tokensOf (emissions last c), t.kind ≠ .error := by
  have hpositions := positions_faultsOf last c
  rw [h, List.map_nil, eq_comm, List.map_eq_nil_iff, List.filter_eq_nil_iff] at hpositions
  exact fun t ht => by simpa using hpositions t ht

/-- The cause is one that scanning finds. -/
def Fault.Cause.IsStray (cause : Fault.Cause) : Prop :=
  ∃ text, cause = .unrecognisedToken text ∨ cause = .malformedNumber text

theorem isStray_strayCause (last : Option Token) (p : Position) (c : Char) :
    (strayCause last p c).IsStray := by
  unfold strayCause
  split
  · split
    · exact ⟨_, .inr rfl⟩
    · exact ⟨_, .inl rfl⟩
  · exact ⟨_, .inl rfl⟩

theorem isStray_of_mem_step {last : Option Token} {c : Cursor} {fault : Fault}
    (h : fault ∈ faultsOf (step last c).1) : fault.cause.IsStray := by
  obtain ⟨text, p⟩ := c
  cases text with
  | nil => cases h
  | cons c rest =>
    have hstep := step_cons last c rest p
    cases hfirst : firstPiece c rest with
    | gap text =>
      rw [hstep, hfirst] at h
      cases h
    | lexeme kind text =>
      rw [hstep, hfirst] at h
      dsimp only at h
      rw [faultsOf_lexemeEmissions] at h
      cases h
    | stray d =>
      rw [hstep, hfirst] at h
      obtain rfl := List.mem_singleton.mp h
      exact isStray_strayCause last p d

/-- Whatever scanning finds wrong is a stray character. -/
theorem isStray_of_mem_faultsOf {last : Option Token} {c : Cursor} {fault : Fault}
    (h : fault ∈ faultsOf (emissions last c)) : fault.cause.IsStray := by
  fun_induction emissions last c with
  | case1 last c hnil => cases h
  | case2 last c hne found ih =>
    rw [faultsOf_append] at h
    rcases List.mem_append.mp h with h | h
    · exact isStray_of_mem_step h
    · exact ih h

/-- The last token, and no other, marks the end. -/
theorem exists_tokensFrom_eq (p : Position) (pieces : List Piece) :
    ∃ row, tokensFrom p pieces = row ++ [.eof (p.afterAll (textOf pieces))] := by
  induction pieces generalizing p with
  | nil => exact ⟨[], rfl⟩
  | cons piece rest ih =>
    obtain ⟨row, hrow⟩ := ih (p.afterAll piece.text)
    exact ⟨piece.tokens p rest ++ row, by
      rw [tokensFrom, hrow, List.append_assoc, textOf_cons, Position.afterAll_append]⟩

/-! ## Signs nobody wrote -/

theorem joinsNext_eq_true (h : joinsNext kind behind = true) :
    ∃ next word rest, behind.dropWhile Piece.isWhite = .lexeme next word :: rest ∧
      kind.multiplies next = true := by
  unfold joinsNext at h
  split at h
  · exact ⟨_, _, _, ‹_›, h⟩
  · cases h

theorem joinsNext_eq_false {behind : List Piece} (h : kind ≠ .number ∧ kind ≠ .closeParen) :
    joinsNext kind behind = false := by
  refine Bool.eq_false_iff.mpr fun hjoins => ?_
  obtain ⟨next, word, rest, -, hmultiplies⟩ := joinsNext_eq_true hjoins
  rcases TokenKind.endsOperand_of_multiplies hmultiplies with hk | hk
  · exact h.1 hk
  · exact h.2 hk

/-- An unwritten multiplication sign stands behind a token that ends an operand, and never first. -/
theorem isChain_tokensFrom
    (hkind : ∀ kind word, .lexeme kind word ∈ pieces → kind ≠ .implicitStar) :
    (tokensFrom p pieces).IsChain (fun t u => u.kind = .implicitStar → t.EndsOperand) ∧
      ∀ u ∈ (tokensFrom p pieces).head?, u.kind ≠ .implicitStar := by
  induction pieces generalizing p with
  | nil => simp [tokensFrom, Token.eof]
  | cons piece rest ih =>
    obtain ⟨hchain, hhead⟩ := ih (p := p.afterAll piece.text) fun kind word h =>
      hkind kind word (.tail _ h)
    cases piece with
    | gap gap => exact ⟨hchain, hhead⟩
    | stray c =>
      refine ⟨List.isChain_cons.mpr ⟨fun u hu hk => absurd hk (hhead u hu), hchain⟩, ?_⟩
      rintro u hu hk
      cases hu
      cases hk
    | lexeme kind word =>
      rw [tokensFrom, Piece.tokens]
      cases hjoins : joinsNext kind rest with
      | false =>
        refine ⟨List.isChain_cons.mpr ⟨fun u hu hk => absurd hk (hhead u hu), hchain⟩, ?_⟩
        rintro u hu
        cases hu
        exact hkind kind word (.head _)
      | true =>
        obtain ⟨next, -, -, -, hmultiplies⟩ := joinsNext_eq_true hjoins
        refine ⟨List.isChain_cons.mpr ⟨?_, List.isChain_cons.mpr
          ⟨fun u hu hk => absurd hk (hhead u hu), hchain⟩⟩, ?_⟩
        · rintro u hu -
          exact TokenKind.endsOperand_of_multiplies hmultiplies
        · rintro u hu
          cases hu
          exact hkind kind word (.head _)

/-! ## Lexemes of a text -/

variable {source : String} {i : Nat}

/-- A lexeme of the text, or a character that begins none, stands at the offset. -/
structure LexemeAt (source : String) (i : Nat) (word : String) : Prop where
  ne_empty : word ≠ ""
  written : word.toList <+: source.toList.drop i
  /-- Scanning gives it as a token, which is not one nobody wrote. -/
  token : ∃ t ∈ tokensOf (scan source), t.kind ≠ .eof ∧ t.kind ≠ .implicitStar ∧
    t.text = word ∧ t.start = placeOf source.toList i

theorem LexemeAt.lt {word : String} (h : LexemeAt source i word) : i < source.toList.length := by
  have hne : word.toList ≠ [] := fun hw => h.ne_empty (String.toList_injective hw)
  have hle := h.written.length_le
  have hpos := List.length_pos_iff.mpr hne
  rw [List.length_drop] at hle
  omega

/-- A token of a piece is written as the piece is, or it is the sign nobody wrote. -/
theorem mem_tokens_cases {piece : Piece} (hmem : piece ∈ cut text)
    (ht : t ∈ piece.tokens p behind) :
    (t.kind ≠ .eof ∧ t.kind ≠ .implicitStar ∧ t.text = .ofList piece.text ∧ t.start = p) ∨
      ∃ kind word, piece = .lexeme kind word ∧ joinsNext kind behind = true ∧
        t = .implicitStar (afterWhite (p.afterAll word) behind) := by
  cases piece with
  | gap => cases ht
  | stray c =>
    obtain rfl := List.mem_singleton.mp ht
    exact .inl ⟨nofun, nofun, String.singleton_eq_ofList, rfl⟩
  | lexeme kind word =>
    obtain ⟨heof, hstar, -⟩ := kind_of_lexeme hmem
    rcases List.mem_cons.mp ht with rfl | ht
    · exact .inl ⟨heof, hstar, rfl, rfl⟩
    · split at ht
      · exact .inr ⟨kind, word, rfl, ‹_›, List.mem_singleton.mp ht⟩
      · cases ht

/-- A token that is written as a piece is stands where the piece does. -/
theorem lexemeAt_of_mem_tokens {piece : Piece}
    (hcut : cut source.toList = before ++ piece :: behind)
    (ht : t ∈ piece.tokens (Position.origin.afterAll (textOf before)) behind)
    (heof : t.kind ≠ .eof) (hstar : t.kind ≠ .implicitStar) (htext : t.text = .ofList piece.text)
    (hstart : t.start = Position.origin.afterAll (textOf before)) :
    LexemeAt source (textOf before).length t.text ∧
      t.start = placeOf source.toList (textOf before).length := by
  have hsource : source.toList = textOf before ++ textOf (piece :: behind) := by
    rw [← textOf_append, ← hcut, textOf_cut]
  have hplace : t.start = placeOf source.toList (textOf before).length := by
    rw [hstart, hsource, placeOf_append]
  refine ⟨⟨?_, ?_, ⟨t, ?_, heof, hstar, rfl, hplace⟩⟩, hplace⟩
  · rw [htext]
    intro hempty
    exact text_ne_nil_of_mem_cut (mem_cut hcut) (String.ofList_injective hempty)
  · rw [htext, String.toList_ofList, hsource, List.drop_left]
    exact List.prefix_append _ _
  · rw [tokensOf_scan, hcut]
    exact mem_tokensFrom.mpr (.inr ⟨before, piece, behind, rfl, ht⟩)

/-- A number among the tokens is a lexeme of the text and ends where that does. -/
theorem exists_cut_of_number (ht : t ∈ tokensOf (scan source)) (hk : t.kind = .number) :
    ∃ before word behind, cut source.toList = (before ++ [.lexeme .number word]) ++ behind ∧
      t.text = .ofList word ∧
      t.span.stop = Position.origin.afterAll (textOf (before ++ [.lexeme .number word])) := by
  rw [tokensOf_scan] at ht
  rcases mem_tokensFrom.mp ht with rfl | ⟨before, piece, behind, hcut, ht⟩
  · cases hk
  cases piece with
  | gap => cases ht
  | stray c =>
    obtain rfl := List.mem_singleton.mp ht
    cases hk
  | lexeme kind word =>
    rcases List.mem_cons.mp ht with rfl | ht
    · obtain rfl : kind = .number := hk
      refine ⟨before, word, behind, by rw [hcut, List.append_assoc]; rfl, rfl, ?_⟩
      simp [Piece.text, Position.afterAll_append]
    · split at ht
      · obtain rfl := List.mem_singleton.mp ht
        cases hk
      · cases ht

theorem isNumeral_of_number (ht : t ∈ tokensOf (scan source)) (hk : t.kind = .number) :
    IsNumeral t.text.toList := by
  obtain ⟨before, word, behind, hcut, htext, -⟩ := exists_cut_of_number ht hk
  rw [htext, String.toList_ofList]
  exact isNumeral_of_lexeme (mem_cut (hcut.trans (List.append_assoc ..)))

/-- What stands behind an unwritten multiplication sign, at the place of the sign. -/
theorem exists_lexemeAt_afterWhite
    (hcut : cut source.toList = before ++ .lexeme kind word :: behind)
    (hjoins : joinsNext kind behind = true) :
    ∃ i next, LexemeAt source i next ∧
      afterWhite ((Position.origin.afterAll (textOf before)).afterAll word) behind =
        placeOf source.toList i := by
  obtain ⟨next, number, rest, hahead, -⟩ := joinsNext_eq_true hjoins
  let passed := before ++ .lexeme kind word :: behind.takeWhile Piece.isWhite
  have hsplit : cut source.toList = passed ++ .lexeme next number :: rest := by
    rw [hcut, List.append_assoc, List.cons_append, ← hahead, List.takeWhile_append_dropWhile]
  obtain ⟨heof, hstar, -⟩ := kind_of_lexeme (mem_cut hsplit)
  obtain ⟨hat, hstart⟩ := lexemeAt_of_mem_tokens hsplit (.head _) heof hstar rfl rfl
  refine ⟨_, _, hat, Eq.trans ?_ hstart⟩
  simp only [passed, afterWhite, textOf_append, textOf_cons, Position.afterAll_append, Token.start,
    Piece.text]

/-- Every token marks the end of the text, or is written where it stands, or is a multiplication
sign nobody wrote and stands where a written one does. -/
theorem token_cases (ht : t ∈ tokensOf (scan source)) :
    t = .eof (placeOf source.toList source.toList.length) ∨
      (t.kind ≠ .eof ∧ t.kind ≠ .implicitStar ∧
        ∃ i, LexemeAt source i t.text ∧ t.start = placeOf source.toList i) ∨
      (t.kind = .implicitStar ∧
        ∃ i word, LexemeAt source i word ∧ t.start = placeOf source.toList i) := by
  rw [tokensOf_scan] at ht
  rcases mem_tokensFrom.mp ht with rfl | ⟨before, piece, behind, hcut, ht⟩
  · rw [textOf_cut, placeOf, List.take_length]
    exact .inl rfl
  rcases mem_tokens_cases (mem_cut hcut) ht with
    ⟨heof, hstar, htext, hstart⟩ | ⟨kind, word, rfl, hjoins, rfl⟩
  · exact .inr (.inl ⟨heof, hstar, _, lexemeAt_of_mem_tokens hcut ht heof hstar htext hstart⟩)
  · exact .inr (.inr ⟨rfl, exists_lexemeAt_afterWhite hcut hjoins⟩)

theorem text_of_openParen (ht : t ∈ tokensOf (scan source)) (hk : t.kind = .openParen) :
    t.text = "(" := by
  rw [tokensOf_scan] at ht
  rcases mem_tokensFrom.mp ht with rfl | ⟨before, piece, behind, hcut, ht⟩
  · cases hk
  cases piece with
  | gap => cases ht
  | stray c =>
    obtain rfl := List.mem_singleton.mp ht
    cases hk
  | lexeme kind word =>
    rcases List.mem_cons.mp ht with rfl | ht
    · obtain rfl : kind = .openParen := hk
      rw [eq_of_openParen_lexeme (mem_cut hcut)]
    · split at ht
      · obtain rfl := List.mem_singleton.mp ht
        cases hk
      · cases ht

end Precedence

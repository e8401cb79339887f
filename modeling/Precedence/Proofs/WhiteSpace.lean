import Precedence.Proofs.Insertion

/-!
# More white space

White space put in where a lexeme begins or ends becomes part of a gap, and the gap is white exactly
if it was. So scanning finds the same words in the text, the multiplication signs nobody wrote among
them, and parsing makes the same of them (`words_putIn`).

At the end of a text the white space may come to stand in a comment, which then goes on up to the
first line feed put in.
-/

namespace Precedence

/-- At the offset begins or ends a lexeme of the text, or the text itself. -/
inductive Boundary (source : String) : Nat → Prop
  | front : Boundary source 0
  | back : Boundary source source.toList.length
  | start {pre post : List Token} {t : Token} {i j : Nat}
      (htokens : tokensOf (scan source) = pre ++ t :: post) (h : Fills source pre [t] i j) :
      Boundary source i
  | stop {pre post : List Token} {t : Token} {i j : Nat}
      (htokens : tokensOf (scan source) = pre ++ t :: post) (h : Fills source pre [t] i j) :
      Boundary source j

variable {source : String} {i : Nat} {space before after gap text : List Char} {s : Segment}
  {front back : List Segment}

/-! ## Gaps -/

/-- Behind the last lexeme there may be a comment that takes the white space in. -/
theorem IsGap.append_space (h : IsGap gap []) (hspace : ∀ c ∈ space, isSpace c = true) :
    IsGap (gap ++ space) [] := by
  generalize hnil : [] = behind at h
  induction h with
  | nil => exact isGap_of_isSpace hspace
  | space hc _ ih => exact .space hc (ih hnil)
  | @comment body gap behind hbody hend h ih =>
    subst hnil
    rw [List.cons_append, List.append_assoc]
    cases gap with
    | cons c gap => exact .comment hbody hend (ih rfl)
    | nil =>
      rw [List.nil_append, ← List.takeWhile_append_dropWhile (p := (· != '\n')) (l := space),
        ← List.append_assoc]
      refine .comment ?_ ?_ (isGap_of_isSpace fun c hc => hspace c (List.dropWhile_subset _ hc))
      · exact List.not_mem_append hbody (Pattern.newline_not_mem_takeWhile (by decide) space)
      · intro c hc
        have hnot := List.head?_dropWhile_not (· != '\n') space
        rw [List.append_nil, Option.mem_def] at hc
        rw [hc] at hnot
        simpa using hnot

/-- White space at the edge of a gap makes a gap of it again. -/
theorem IsGap.withSpace {behind : List Char} (h : IsGap (before ++ after) behind)
    (hends : EndsGap behind) (hedge : before = [] ∨ after = [])
    (hspace : ∀ c ∈ space, isSpace c = true) : IsGap (before ++ (space ++ after)) behind := by
  rcases hedge with rfl | rfl
  · exact (isGap_of_isSpace hspace).append h
  · rw [List.append_nil] at h ⊢
    by_cases hnil : behind = []
    · subst hnil
      exact h.append_space hspace
    · exact (h.anywhere hends hnil).append (isGap_of_isSpace hspace)

/-! ## Divisions -/

/-- The last lexeme is the mark of the end. -/
theorem Divides.word_eq_nil (h : Divides text (front ++ [s])) : s.word = [] := by
  rcases (h.tail_of_append (List.cons_ne_nil s [])).cons_cases with ⟨-, -, hword⟩ | ⟨_, -, -, h⟩
  · exact hword
  · cases h

/-- The boundaries of a text are the edges of its gaps. -/
theorem Boundary.exists_gap (h : Boundary source i) :
    ∃ front s back before after, Divides source.toList (front ++ s :: back) ∧
      s.gap = before ++ after ∧ (before = [] ∨ after = []) ∧
      i = (written front ++ before).length := by
  cases h with
  | front =>
    obtain ⟨segments, h⟩ := exists_divides source.toList
    cases segments with
    | nil => cases h
    | cons s back => exact ⟨[], s, back, [], s.gap, h, rfl, .inl rfl, rfl⟩
  | back =>
    obtain ⟨segments, h⟩ := exists_divides source.toList
    rcases List.eq_nil_or_concat segments with rfl | ⟨front, s, rfl⟩
    · cases h
    · rw [List.concat_eq_append] at h
      refine ⟨front, s, [], s.gap, [], h, (List.append_nil _).symm, .inr rfl, ?_⟩
      rw [h.written_eq]
      simp [h.word_eq_nil]
  | start _ h =>
    obtain ⟨h, -, -⟩ := h
    exact ⟨_, _, _, _, [], h, (List.append_nil _).symm, .inr rfl, rfl⟩
  | stop _ h =>
    obtain @⟨front, middle, back, s, h, -, hone⟩ := h
    have hone : (s :: middle).length ≤ 1 := hone ▸ List.length_filter_le ..
    obtain rfl : middle = [] := List.eq_nil_of_length_eq_zero (by simpa using hone)
    cases back with
    | nil =>
      refine ⟨front, s, [], s.gap, [], h, (List.append_nil _).symm, .inr rfl, ?_⟩
      simp [Divides.word_eq_nil h]
    | cons next back =>
      exact ⟨front ++ [s], next, back, [], next.gap, by simpa using h, rfl, .inl rfl, by simp⟩

/-- A text that begins with another gap. -/
theorem Divides.withGap (h : Divides text (s :: back))
    (hgap : ∀ behind, EndsGap behind → IsGap s.gap behind → IsGap gap behind) :
    Divides (gap ++ (s.word ++ written back)) (⟨gap, s.kind, s.word⟩ :: back) := by
  have hnil : EndsGap [] := nofun
  cases h with
  | last hlast =>
    rw [written_nil, List.append_nil, List.append_nil]
    exact .last (hgap [] hnil hlast)
  | segment _ hfirst hword h =>
    rw [← h.written_eq]
    exact .segment rfl (hgap _ hword.endsGap hfirst) hword h

/-- With white space put in at the edge of a gap, a text is divided as it was but for the gap. -/
theorem Divides.withSpace (h : Divides source.toList (front ++ s :: back))
    (hgap : s.gap = before ++ after) (hedge : before = [] ∨ after = [])
    (hspace : ∀ c ∈ space, isSpace c = true) :
    Divides (putIn source (written front ++ before).length (.ofList space)).toList
      (front ++ ⟨before ++ (space ++ after), s.kind, s.word⟩ :: back) := by
  have hfill : source.toList =
      (written front ++ before) ++ (after ++ (s.word ++ written back)) := by
    rw [h.written_eq]
    simp [hgap]
  have htext : (putIn source (written front ++ before).length (.ofList space)).toList =
      written front ++ (before ++ (space ++ (after ++ (s.word ++ written back)))) := by
    rw [toList_putIn hfill, String.toList_ofList, List.append_assoc]
  have htail := (h.tail_of_append (List.cons_ne_nil s back)).withGap
    fun behind hends h => (hgap ▸ h).withSpace hends hedge hspace
  rw [htext]
  cases space with
  | nil =>
    rw [List.append_assoc] at hfill
    rwa [List.nil_append, List.nil_append, ← hfill, ← hgap]
  | cons x space =>
    have hsolitary : Solitary x := solitary_of_isSpace (hspace x (.head _))
    simp only [List.cons_append, List.append_assoc] at htail ⊢
    have hback : written (s :: back) = before ++ (after ++ (s.word ++ written back)) := by
      rw [written_cons, hgap, List.append_assoc]
    exact h.insert hsolitary (List.cons_ne_nil s back) hback htail

/-! ## Words -/

/-- White space in front of a lexeme does not matter to its words. -/
theorem signWords_withSpace {kind : TokenKind} {word : List Char}
    (hspace : ∀ c ∈ space, isSpace c = true) (previous : TokenKind) :
    Segment.signWords previous ⟨before ++ (space ++ after), kind, word⟩ =
      Segment.signWords previous ⟨before ++ after, kind, word⟩ := by
  simp only [Segment.signWords, Segment.isJoined, List.all_append, List.all_eq_true.mpr hspace,
    Bool.true_and]

/-- White space put in where a lexeme begins or ends, or the text, leaves the words of the tokens as
they are, and without a fault of scanning also what is parsed, but for the places. -/
theorem words_putIn {more : String} (hi : Boundary source i)
    (hspace : ∀ c ∈ more.toList, isSpace c = true) :
    words (tokensOf (scan (putIn source i more))) = words (tokensOf (scan source)) ∧
      (faultsOf (scan source) = [] → ∀ maxDepth,
        withoutPlaces (parseWithin maxDepth (putIn source i more)) =
          withoutPlaces (parseWithin maxDepth source)) := by
  have hwords : words (tokensOf (scan (putIn source i more))) = words (tokensOf (scan source)) := by
    obtain ⟨front, s, back, before, after, h, hgap, hedge, rfl⟩ := hi.exists_gap
    have hwith := h.withSpace hgap hedge hspace
    rw [String.ofList_toList] at hwith
    obtain ⟨gap, kind, word⟩ := s
    obtain rfl : gap = before ++ after := hgap
    rw [words_scan_of_divides hwith, words_scan_of_divides h, dividedWords_append,
      dividedWords_append, dividedWords, dividedWords, signWords_withSpace hspace]
  refine ⟨hwords, fun hfaults maxDepth => ?_⟩
  have herror := kind_ne_error_of_faultsOf_eq_nil hfaults
  rw [withoutPlaces_parseWithin_of_words herror hwords,
    withoutPlaces_parseWithin_of_words herror rfl]

/-- The number of `2(3)` ends in front of the sign nobody wrote. -/
theorem boundary_product : Boundary "2(3)" 1 := by
  have hdivides : Divides "2(3)".toList
      ([] ++ ⟨[], .number, ['2']⟩ :: ([] ++ [⟨[], .openParen, ['(']⟩, ⟨[], .number, ['3']⟩,
        ⟨[], .closeParen, [')']⟩, ⟨[], .eof, []⟩])) :=
    .segment rfl .nil (isLexeme_of_ruleFor? (ruleFor?_digit rfl) rfl rfl)
      (.segment rfl .nil (isLexeme_of_ruleFor? ruleFor?_openParen rfl rfl)
        (.segment rfl .nil (isLexeme_of_ruleFor? (ruleFor?_digit rfl) rfl rfl)
          (.segment rfl .nil (isLexeme_of_ruleFor? rfl rfl rfl) (.last .nil))))
  have htokens : tokensOf (scan "2(3)") = [] ++ ⟨.number, "2", ⟨⟨1, 1⟩, ⟨1, 2⟩⟩⟩ ::
      (tokensOf (scan "2(3)")).tail := by decide +kernel
  exact .stop htokens (.intro hdivides rfl rfl)

/-- The two stay factors over white space. -/
theorem words_putIn_product :
    Boundary "2(3)" 1 ∧ (∀ c ∈ "\t\r\n".toList, isSpace c = true) ∧
      putIn "2(3)" 1 "\t\r\n" = "2\t\r\n(3)" ∧
      words (tokensOf (scan (putIn "2(3)" 1 "\t\r\n"))) = words (tokensOf (scan "2(3)")) ∧
      (faultsOf (scan "2(3)") = [] → ∀ maxDepth,
        withoutPlaces (parseWithin maxDepth (putIn "2(3)" 1 "\t\r\n")) =
          withoutPlaces (parseWithin maxDepth "2(3)")) := by
  have hspace : ∀ c ∈ "\t\r\n".toList, isSpace c = true := by simp [isSpace, isBlank]
  exact ⟨boundary_product, hspace, by decide, words_putIn boundary_product hspace⟩

end Precedence

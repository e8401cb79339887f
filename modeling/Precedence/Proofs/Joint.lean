import Precedence.Proofs.DividedTokens

/-!
# Where multiplication signs are meant

Scanning puts in a multiplication sign nobody wrote exactly where two lexemes that multiply have
nothing but white space between them (`exists_signsBetween`): a number in front of a name or an
opening parenthesis, a closing parenthesis in front of one of these or of a number. The scanner
decides it behind the first of the two by the next character alone, before the second lexeme exists;
here it is said of the two lexemes and of the gap between them.
-/

namespace Precedence

/-- Which signs nobody wrote are among the tokens of a text that is divided into the segments. -/
structure SignsBetween (source : String) (segments : List Segment) : Prop where
  divides : Divides source.toList segments
  /-- Between two tokens that follow each other there is one sign, where the second begins, if the
  gap between their lexemes is white and the two multiply, and otherwise none. -/
  between : ∀ front a signs b back, tokensOf (scan source) = front ++ a :: (signs ++ b :: back) →
    a.kind ≠ .implicitStar → b.kind ≠ .implicitStar → (∀ t ∈ signs, t.kind = .implicitStar) →
    ∃ init s next rest, segments = init ++ s :: next :: rest ∧
      init.length = (withoutSigns front).length ∧
      (a.kind = s.kind ∧ a.text = .ofList s.word) ∧
      (b.kind = next.kind ∧ b.text = .ofList next.word) ∧
      signs = if next.gap.all isSpace = true ∧ a.kind.multiplies b.kind = true then
        [.implicitStar b.start] else []
  /-- There is no sign in front of all tokens. -/
  first : ∀ t ∈ (tokensOf (scan source)).head?, t.kind ≠ .implicitStar
  /-- There is no sign behind all tokens. -/
  last : ∀ t ∈ (tokensOf (scan source)).getLast?, t.kind ≠ .implicitStar

variable {before : TokenKind} {p : Position} {s : Segment} {segments : List Segment}
  {signs back : List Token} {b : Token}

theorem Segment.sign_eq (before : TokenKind) (p : Position) (s : Segment) :
    s.sign before p = if s.gap.all isSpace = true ∧ before.multiplies s.kind = true then
      [.implicitStar (s.token p).start] else [] := by
  have hjoined : s.isJoined before = true ↔
      s.gap.all isSpace = true ∧ before.multiplies s.kind = true := by
    rw [isJoined, Bool.and_eq_true, and_comm]
  rw [sign]
  by_cases h : s.isJoined before = true
  · rw [if_pos h, if_pos (hjoined.mp h)]
    rfl
  · rw [if_neg h, if_neg (mt hjoined.mpr h)]

/-- The signs in front of the first written token are those of the first segment. -/
theorem eq_sign_of_dividedTokens (hs : s.kind ≠ .implicitStar)
    (heq : dividedTokens before p (s :: segments) = signs ++ b :: back)
    (hsigns : ∀ t ∈ signs, t.kind = .implicitStar) (hb : b.kind ≠ .implicitStar) :
    signs = s.sign before p ∧ b = s.token p := by
  have hsign : ∀ u ∈ s.sign before p, ¬ u.kind ≠ .implicitStar := fun u hu hne =>
    hne (Segment.kind_of_mem_sign hu)
  obtain ⟨more, rfl, hmore⟩ := exists_split_of_append heq hsign hb
  cases more with
  | nil =>
    obtain ⟨rfl, -⟩ := List.cons.inj hmore
    exact ⟨List.append_nil _, rfl⟩
  | cons t more =>
    obtain ⟨rfl, -⟩ := List.cons.inj hmore
    exact absurd (hsigns (s.token p) (by simp)) hs

/-- Nothing is multiplied with the beginning of the text. -/
theorem kind_of_head_dividedTokens {t : Token} (hkind : ∀ s ∈ segments, s.kind ≠ .implicitStar)
    (ht : t ∈ (dividedTokens .eof p segments).head?) : t.kind ≠ .implicitStar := by
  cases segments with
  | nil => cases ht
  | cons s segments =>
    have hnone : s.sign .eof p = [] := rfl
    rw [dividedTokens, hnone] at ht
    cases ht
    exact hkind s (.head _)

/-- A multiplication sign is meant between two lexemes that multiply, over white space, and nowhere
else. -/
theorem exists_signsBetween (source : String) : ∃ segments, SignsBetween source segments := by
  obtain ⟨segments, h⟩ := exists_divides source.toList
  have hkind := h.kind_ne_implicitStar
  have htokens := tokensOf_scan_of_divides h
  refine ⟨segments, h, ?_, ?_, ?_⟩
  · intro front a signs b back heq ha hb hsigns
    rw [htokens] at heq
    obtain ⟨init, s, rest, rfl, hlength, rfl, hback⟩ :=
      exists_segment_of_dividedTokens hkind heq ha
    cases rest with
    | nil => exact absurd hback (by simp [dividedTokens])
    | cons next rest =>
      have hnext : next.kind ≠ .implicitStar := hkind next (by simp)
      obtain ⟨rfl, rfl⟩ := eq_sign_of_dividedTokens hnext hback.symm hsigns hb
      exact ⟨init, s, next, rest, rfl, hlength, ⟨rfl, rfl⟩, ⟨rfl, rfl⟩, Segment.sign_eq _ _ _⟩
  · intro t ht
    rw [htokens] at ht
    exact kind_of_head_dividedTokens hkind ht
  · intro t ht hk
    obtain ⟨front, hfront⟩ := List.getLast?_eq_some_iff.mp ht
    rw [htokens] at hfront
    obtain ⟨u, rest, hnil, -⟩ := exists_next_of_dividedTokens hkind hfront hk
    cases hnil

end Precedence

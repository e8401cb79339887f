import Precedence.Proofs.DividedTokens

/-!
# Texts without their comments

A text in which spaces stand in place of every comment (`uncommented`) has the lexemes of the text
itself, at the same places, and none besides: only the gaps between them change
(`Divides.uncomment`). So scanning finds in it the same tokens, but for the multiplication signs
that a comment kept away (`dividedTokens_uncommented`); of these there are more, unless no comment
stood where one is meant (`countSigns_uncommented`).
-/

namespace Precedence

/-- The text with spaces in place of its comments, read from inside of one or from outside. -/
def uncomment : Bool → List Char → List Char
  | _, [] => []
  | inside, c :: rest =>
    if c = '\n' then c :: uncomment false rest
    else if inside || c = '#' then ' ' :: uncomment true rest
    else c :: uncomment false rest

def uncommented (source : String) : String := .ofList (uncomment false source.toList)

/-- The segment with spaces in place of the comments in its gap. -/
def Segment.uncommented (s : Segment) : Segment := { s with gap := uncomment false s.gap }

/-- No comment keeps apart what the segments have to multiply. -/
def Plain (s next : Segment) : Prop :=
  s.kind.multiplies next.kind = true → '#' ∉ next.gap

variable {c : Char} {text word gap rest behind body more : List Char} {inside : Bool}
  {kind before : TokenKind} {p : Position} {segments : List Segment}

/-! ## Characters -/

theorem uncomment_newline : uncomment inside ('\n' :: rest) = '\n' :: uncomment false rest := rfl

theorem uncomment_inside (hc : c ≠ '\n') :
    uncomment true (c :: rest) = ' ' :: uncomment true rest := by
  rw [uncomment, if_neg hc]
  rfl

theorem uncomment_hash : uncomment false ('#' :: rest) = ' ' :: uncomment true rest := rfl

theorem uncomment_outside (hc : c ≠ '#') :
    uncomment false (c :: rest) = c :: uncomment false rest := by
  by_cases hnl : c = '\n'
  · rw [hnl, uncomment_newline]
  · rw [uncomment, if_neg hnl, if_neg (by simp [hc])]

/-- Every character gives way to one that fills as much of its line. -/
theorem afterAll_uncomment (p : Position) (inside : Bool) (text : List Char) :
    p.afterAll (uncomment inside text) = p.afterAll text := by
  induction text generalizing p inside with
  | nil => rfl
  | cons c text ih =>
    by_cases hnl : c = '\n'
    · rw [hnl, uncomment_newline, Position.afterAll_cons, ih, Position.afterAll_cons]
    · have hspace : p.after ' ' = p.after c := by simp [Position.after, hnl]
      rw [uncomment, if_neg hnl]
      split
      · rw [Position.afterAll_cons, ih, hspace, Position.afterAll_cons]
      · rw [Position.afterAll_cons, ih, Position.afterAll_cons]

theorem uncomment_append (h : '#' ∉ word) :
    uncomment false (word ++ rest) = word ++ uncomment false rest := by
  induction word with
  | nil => rfl
  | cons c word ih =>
    obtain ⟨hc, hword⟩ := not_or.mp (mt List.mem_cons.mpr h)
    rw [List.cons_append, uncomment_outside (Ne.symm hc), ih hword, List.cons_append]

/-- A comment becomes spaces and ends where it did. -/
theorem uncomment_comment (hbody : '\n' ∉ body) (hend : ∀ c ∈ rest.head?, c = '\n') :
    uncomment true (body ++ rest) = List.replicate body.length ' ' ++ uncomment false rest := by
  induction body with
  | nil =>
    cases rest with
    | nil => rfl
    | cons c rest =>
      obtain rfl := hend c rfl
      rfl
  | cons c body ih =>
    obtain ⟨hc, hbody⟩ := not_or.mp (mt List.mem_cons.mpr hbody)
    rw [List.cons_append, uncomment_inside (Ne.symm hc), ih hbody]
    rfl

/-- What is in front of the text without a space in it is there already. -/
theorem prefix_of_prefix_uncomment (hmore : ' ' ∉ more) (h : more <+: uncomment false text) :
    more <+: text := by
  induction more generalizing text with
  | nil => exact List.nil_prefix
  | cons d more ih =>
    obtain ⟨hd, hmore⟩ := not_or.mp (mt List.mem_cons.mpr hmore)
    cases text with
    | nil => cases List.prefix_nil.mp h
    | cons c rest =>
      by_cases hc : c = '#'
      · rw [hc, uncomment_hash] at h
        exact absurd (List.cons_prefix_cons.mp h).1.symm hd
      · rw [uncomment_outside hc] at h
        obtain ⟨rfl, htail⟩ := List.cons_prefix_cons.mp h
        exact List.cons_prefix_cons.mpr ⟨rfl, ih hmore htail⟩

/-! ## Gaps and lexemes -/

/-- A gap becomes white space. -/
theorem uncomment_gap (h : IsGap gap behind) :
    uncomment false (gap ++ behind) = uncomment false gap ++ uncomment false behind ∧
      ∀ c ∈ uncomment false gap, isSpace c = true := by
  induction h with
  | nil => exact ⟨rfl, nofun⟩
  | @space c gap behind hc _ ih =>
    have hne : c ≠ '#' := by rintro rfl; exact absurd hc (by decide)
    rw [List.cons_append, uncomment_outside hne, uncomment_outside hne, ih.1]
    exact ⟨rfl, List.forall_mem_cons.mpr ⟨hc, ih.2⟩⟩
  | @comment body gap behind hbody hend _ ih =>
    have hgap : ∀ c ∈ gap.head?, c = '\n' := fun c hc => hend c (by simp [Option.mem_def.mp hc])
    rw [List.cons_append, List.append_assoc, uncomment_hash, uncomment_comment hbody hend,
      uncomment_hash, uncomment_comment hbody hgap, ih.1]
    refine ⟨by simp, List.forall_mem_cons.mpr ⟨rfl, List.forall_mem_append.mpr ⟨?_, ih.2⟩⟩⟩
    intro c hc
    rw [List.eq_of_mem_replicate hc]
    rfl

theorem all_isSpace_of_isGap (h : IsGap gap behind) (hplain : '#' ∉ gap) :
    gap.all isSpace = true := by
  induction h with
  | nil => rfl
  | space hc _ ih => rw [List.all_cons, hc, ih (mt (List.mem_cons_of_mem _) hplain)]; rfl
  | comment => exact absurd (.head _) hplain

theorem not_mem_of_isLexeme (h : IsLexeme kind word rest) : '#' ∉ word := by
  cases h with
  | word hword _ => exact fun hmem => (ne_of_isWord hword '#' hmem).2 rfl
  | stray _ hcomment _ => exact fun hmem => hcomment (List.mem_singleton.mp hmem).symm

/-- A lexeme goes on as far as it did. -/
theorem IsLexeme.uncomment (h : IsLexeme kind word rest) :
    IsLexeme kind word (uncomment false rest) := by
  have hplain : ∀ {kind : TokenKind} {word : List Char}, kind.IsWord word → ' ' ∉ word :=
    fun hword hmem => (ne_of_isWord hword ' ' hmem).1 rfl
  cases h with
  | word hword hlongest =>
    refine .word hword fun more hmore hlonger => hlongest more ?_ hlonger
    exact prefix_of_prefix_uncomment (mt (List.mem_append_right _) (hplain hlonger)) hmore
  | stray hspace hcomment hnone =>
    refine .stray hspace hcomment fun kind word hword hfront => hnone kind word hword ?_
    rw [← uncomment_outside hcomment] at hfront
    exact prefix_of_prefix_uncomment (hplain hword) hfront

/-- The division of a text without its comments is the division of the text. -/
theorem Divides.uncomment (h : Divides text segments) :
    Divides (uncomment false text) (segments.map Segment.uncommented) := by
  induction h with
  | last hgap => exact .last (isGap_of_isSpace (uncomment_gap hgap).2)
  | @segment s text rest segments htext hgap hword _ ih =>
    obtain ⟨happend, hspace⟩ := uncomment_gap hgap
    rw [uncomment_append (not_mem_of_isLexeme hword)] at happend
    exact .segment (s := s.uncommented) (htext ▸ happend) (isGap_of_isSpace hspace)
      hword.uncomment ih

/-! ## Tokens -/

theorem Divides.exists_isGap (h : Divides text segments) :
    ∀ s ∈ segments, ∃ behind, IsGap s.gap behind := by
  induction h with
  | last hgap => exact List.forall_mem_singleton.mpr ⟨_, hgap⟩
  | segment _ hgap _ _ ih => exact List.forall_mem_cons.mpr ⟨⟨_, hgap⟩, ih⟩

section Tokens

variable {s s₀ : Segment}

theorem token_uncommented (p : Position) (s : Segment) : s.uncommented.token p = s.token p := by
  simp only [Segment.token, Segment.uncommented, Segment.text, Position.afterAll_append,
    afterAll_uncomment]

theorem afterAll_uncommented (p : Position) (s : Segment) :
    p.afterAll s.uncommented.text = p.afterAll s.text :=
  congrArg (·.span.stop) (token_uncommented p s)

/-- Without comments a sign is meant between any two lexemes that multiply. -/
theorem isJoined_uncommented (hgap : IsGap s.gap behind) :
    s.uncommented.isJoined before = before.multiplies s.kind := by
  have hspace : (uncomment false s.gap).all isSpace = true :=
    List.all_eq_true.mpr (uncomment_gap hgap).2
  rw [Segment.isJoined, Segment.uncommented, hspace, Bool.and_true]

/-- What a sign needs besides is that there is no comment. -/
theorem isJoined_eq (hgap : IsGap s.gap behind) :
    s.isJoined before = (before.multiplies s.kind && decide ('#' ∉ s.gap)) := by
  rw [Segment.isJoined]
  by_cases hplain : '#' ∈ s.gap
  · have hall : s.gap.all isSpace = false := by
      rw [List.all_eq_false]
      exact ⟨'#', hplain, by decide⟩
    simp [hall, hplain]
  · simp [all_isSpace_of_isGap hgap hplain, hplain]

theorem sign_uncommented (hgap : IsGap s.gap behind)
    (hplain : before.multiplies s.kind = true → '#' ∉ s.gap) :
    s.uncommented.sign before p = s.sign before p := by
  have hjoined : s.uncommented.isJoined before = s.isJoined before := by
    rw [isJoined_uncommented hgap, isJoined_eq hgap]
    cases hmultiplies : before.multiplies s.kind with
    | true => simp [hplain hmultiplies]
    | false => rfl
  rw [Segment.sign, Segment.sign, hjoined, Segment.uncommented, afterAll_uncomment]

/-- A text in which no comment keeps apart what is to be multiplied has the same tokens without its
comments. -/
theorem dividedTokens_uncommented (hgaps : ∀ s ∈ segments, ∃ behind, IsGap s.gap behind)
    (hplain : (s₀ :: segments).IsChain Plain) :
    dividedTokens s₀.kind p (segments.map Segment.uncommented) =
      dividedTokens s₀.kind p segments := by
  induction segments generalizing s₀ p with
  | nil => rfl
  | cons s segments ih =>
    obtain ⟨⟨behind, hgap⟩, hgaps⟩ := List.forall_mem_cons.mp hgaps
    obtain ⟨hfirst, hrest⟩ := List.isChain_cons_cons.mp hplain
    rw [List.map_cons, dividedTokens, dividedTokens, sign_uncommented hgap hfirst,
      token_uncommented, afterAll_uncommented]
    exact congrArg (fun rest => s.sign s₀.kind p ++ s.token p :: rest) (@ih _ s hgaps hrest)

theorem countSigns_sign : countSigns (s.sign before p) = if s.isJoined before then 1 else 0 := by
  rw [Segment.sign]
  split <;> rfl

/-- A sign that a comment kept away comes in addition. -/
theorem countSigns_sign_uncommented (hgap : IsGap s.gap behind) (before : TokenKind)
    (p : Position) :
    countSigns (s.sign before p) ≤ countSigns (s.uncommented.sign before p) ∧
      (countSigns (s.sign before p) = countSigns (s.uncommented.sign before p) →
        before.multiplies s.kind = true → '#' ∉ s.gap) := by
  rw [countSigns_sign, countSigns_sign, isJoined_uncommented hgap, isJoined_eq hgap]
  cases before.multiplies s.kind with
  | false => exact ⟨Nat.le_refl _, fun _ => nofun⟩
  | true => by_cases hplain : '#' ∈ s.gap <;> simp [hplain]

theorem countSigns_dividedTokens_cons (before : TokenKind) (p : Position) (s : Segment)
    (segments : List Segment) :
    countSigns (dividedTokens before p (s :: segments)) = countSigns (s.sign before p) +
      (countSigns (dividedTokens s.kind (p.afterAll s.text) segments) +
        if s.kind = .implicitStar then 1 else 0) := by
  rw [dividedTokens, countSigns_append, countSigns_cons, Segment.token]

/-- Without its comments a text has at least as many signs, and more if a comment kept one away. -/
theorem countSigns_uncommented (hgaps : ∀ s ∈ segments, ∃ behind, IsGap s.gap behind) :
    countSigns (dividedTokens s₀.kind p segments) ≤
        countSigns (dividedTokens s₀.kind p (segments.map Segment.uncommented)) ∧
      (countSigns (dividedTokens s₀.kind p segments) =
          countSigns (dividedTokens s₀.kind p (segments.map Segment.uncommented)) →
        (s₀ :: segments).IsChain Plain) := by
  induction segments generalizing s₀ p with
  | nil => exact ⟨Nat.le_refl _, fun _ => .singleton _⟩
  | cons s segments ih =>
    obtain ⟨⟨behind, hgap⟩, hgaps⟩ := List.forall_mem_cons.mp hgaps
    obtain ⟨hfirst, hplain⟩ := countSigns_sign_uncommented hgap s₀.kind p
    obtain ⟨hrest, hchain⟩ := @ih (p.afterAll s.text) s hgaps
    have hkind : s.uncommented.kind = s.kind := rfl
    rw [List.map_cons, countSigns_dividedTokens_cons, countSigns_dividedTokens_cons, hkind,
      afterAll_uncommented]
    refine ⟨by omega, fun heq => List.isChain_cons_cons.mpr ⟨hplain (by omega), hchain (by omega)⟩⟩

end Tokens

end Precedence

import Precedence.Proofs.Division
import Precedence.Proofs.Layout

/-!
# The tokens of a division

What is found by scanning a text follows from its division: every lexeme gives a token, in order, and
in front of it stands a multiplication sign nobody wrote if one is meant there
(`tokensOf_scan_of_divides`). A sign is meant between two lexemes that multiply if the gap between
them is nothing but white space.

So scanning loses nothing of a text but the gaps (`exists_lossless`).
-/

namespace Precedence

namespace Segment

/-- The token of the lexeme, if the segment begins at the place. -/
def token (p : Position) (s : Segment) : Token :=
  ⟨s.kind, .ofList s.word, ⟨p.afterAll s.gap, p.afterAll s.text⟩⟩

/-- Is a multiplication sign meant in front of the lexeme, behind one of the kind? -/
def isJoined (before : TokenKind) (s : Segment) : Bool :=
  before.multiplies s.kind && s.gap.all isSpace

/-- The multiplication sign nobody wrote in front of the lexeme, behind one of the kind. -/
def sign (before : TokenKind) (p : Position) (s : Segment) : List Token :=
  if s.isJoined before then [.implicitStar (p.afterAll s.gap)] else []

end Segment

/-- The tokens of segments that begin at a place, behind a lexeme of the kind. -/
def dividedTokens (before : TokenKind) (p : Position) : List Segment → List Token
  | [] => []
  | s :: rest =>
    s.sign before p ++ s.token p :: dividedTokens s.kind (p.afterAll s.text) rest

/-- The tokens that are lexemes or mark the end. -/
def withoutSigns (ts : List Token) : List Token := ts.filter (·.kind ≠ .implicitStar)

/-- How many multiplication signs there are that nobody wrote. -/
def countSigns (ts : List Token) : Nat := ts.countP (·.kind = .implicitStar)

theorem countSigns_append (ts us : List Token) :
    countSigns (ts ++ us) = countSigns ts + countSigns us :=
  List.countP_append

theorem countSigns_cons (t : Token) (ts : List Token) :
    countSigns (t :: ts) = countSigns ts + if t.kind = .implicitStar then 1 else 0 := by
  simp [countSigns, List.countP_cons]

theorem withoutSigns_append (ts us : List Token) :
    withoutSigns (ts ++ us) = withoutSigns ts ++ withoutSigns us :=
  List.filter_append ..

theorem withoutSigns_cons {t : Token} (h : t.kind ≠ .implicitStar) (ts : List Token) :
    withoutSigns (t :: ts) = t :: withoutSigns ts :=
  List.filter_cons_of_pos (decide_eq_true h)

theorem withoutSigns_eq_nil {ts : List Token} (h : ∀ t ∈ ts, t.kind = .implicitStar) :
    withoutSigns ts = [] :=
  List.filter_eq_nil_iff.mpr fun t ht => by simp [h t ht]

variable {c : Char} {gap word rest behind text : List Char} {kind before : TokenKind}
  {p : Position} {segments : List Segment}

/-- Nothing is multiplied with the end. -/
theorem dividedTokens_last (before : TokenKind) (p : Position) (gap : List Char) :
    dividedTokens before p [⟨gap, .eof, []⟩] = [.eof (p.afterAll gap)] := by
  have hlast : before.multiplies .eof = false := by cases before <;> rfl
  rw [dividedTokens, Segment.sign, Segment.isJoined, hlast, Segment.token, Segment.text,
    List.append_nil]
  rfl

/-! ## Gaps leave nothing behind -/

theorem cut_comment {body : List Char} (hbody : '\n' ∉ body) (hend : ∀ c ∈ rest.head?, c = '\n') :
    cut ('#' :: (body ++ rest)) = .gap ('#' :: body) :: cut rest := by
  have hmany : Pattern.many (· != '\n') (body ++ rest) = body.length :=
    many_append (fun c hc => bne_iff_ne.mpr fun e => hbody (e ▸ hc))
      fun c hc => by simp [hend c hc]
  have hfirst : firstPiece '#' (body ++ rest) = .gap ('#' :: body) := by
    rw [firstPiece, ruleFor?_comment]
    show Piece.gap (List.take (1 + Pattern.many (· != '\n') (body ++ rest)) _) = _
    rw [hmany, Nat.add_comm, List.take_succ_cons, List.take_left]
  rw [cut_cons, hfirst, ← List.cons_append]
  exact congrArg _ (congrArg cut (@List.drop_left _ ('#' :: body) rest))

theorem tokensFrom_gap (h : IsGap gap behind) (p : Position) :
    tokensFrom p (cut (gap ++ behind)) = tokensFrom (p.afterAll gap) (cut behind) := by
  induction h generalizing p with
  | nil => rfl
  | space hc _ ih => rw [List.cons_append, tokensFrom_space hc, ih, Position.afterAll_cons]
  | comment hbody hend _ ih =>
    rw [List.cons_append, List.append_assoc, cut_comment hbody hend, tokensFrom, Piece.tokens, ih,
      Piece.text, ← List.cons_append, Position.afterAll_append]
    rfl

theorem joinsNext_space (hc : isSpace c = true) :
    joinsNext kind (cut (c :: rest)) = joinsNext kind (cut rest) := by
  rw [joinsNext_cut, joinsNext_cut, List.dropWhile_cons_of_pos hc]

/-- A gap that is not only white space keeps lexemes apart. -/
theorem joinsNext_gap (h : IsGap gap behind) :
    joinsNext kind (cut (gap ++ behind)) = (gap.all isSpace && joinsNext kind (cut behind)) := by
  induction h with
  | nil => rfl
  | space hc _ ih => rw [List.cons_append, joinsNext_space hc, ih, List.all_cons, hc, Bool.true_and]
  | comment hbody hend _ ih =>
    rw [List.cons_append, List.append_assoc, cut_comment hbody hend]
    rfl

theorem afterWhite_gap (h : gap.all isSpace = true) (hends : EndsGap behind) :
    afterWhite p (cut (gap ++ behind)) = p.afterAll gap := by
  have hnone : behind.takeWhile isSpace = [] := by
    cases behind with
    | nil => rfl
    | cons c behind => rw [List.takeWhile_cons_of_neg (by simp [(hends c rfl).1])]
  rw [afterWhite, textOf_takeWhile_cut, List.takeWhile_append_of_pos (List.all_eq_true.mp h), hnone,
    List.append_nil]

/-! ## Lexemes -/

theorem joinsNext_lexeme (h : IsLexeme kind word rest) :
    joinsNext before (cut (word ++ rest)) = before.multiplies kind := by
  cases h with
  | word hword hlongest =>
    rw [cut_word hword hlongest]
    rfl
  | stray hspace hcomment hnone =>
    rw [List.singleton_append, cut_stray (ruleFor?_of_stray hspace hcomment hnone)]
    cases before <;> rfl

/-- The sign between a lexeme of the kind and the text behind it. -/
def signBehind (before : TokenKind) (p : Position) (text : List Char) : List Token :=
  if joinsNext before (cut text) then [.implicitStar (afterWhite p (cut text))] else []

theorem signBehind_eq_nil (h : before ≠ .number ∧ before ≠ .closeParen) :
    signBehind before p text = [] :=
  if_neg (by rw [joinsNext_eq_false h]; exact Bool.false_ne_true)

theorem tokensFrom_lexeme (h : IsLexeme kind word rest) (p : Position) :
    tokensFrom p (cut (word ++ rest)) = ⟨kind, .ofList word, ⟨p, p.afterAll word⟩⟩ ::
      (signBehind kind (p.afterAll word) rest ++ tokensFrom (p.afterAll word) (cut rest)) := by
  cases h with
  | word hword hlongest =>
    rw [cut_word hword hlongest]
    rfl
  | @stray c _ hspace hcomment hnone =>
    have hsign : signBehind .error (p.afterAll [c]) rest = [] := signBehind_eq_nil ⟨nofun, nofun⟩
    rw [List.singleton_append, cut_stray (ruleFor?_of_stray hspace hcomment hnone), tokensFrom,
      hsign]
    rfl

theorem signBehind_segment {s : Segment} (hgap : IsGap s.gap (s.word ++ rest))
    (hword : IsLexeme s.kind s.word rest) :
    signBehind before p (s.gap ++ (s.word ++ rest)) = s.sign before p := by
  rw [signBehind, joinsNext_gap hgap, joinsNext_lexeme hword, Bool.and_comm, Segment.sign,
    Segment.isJoined]
  split
  · rename_i hjoined
    rw [afterWhite_gap (Bool.and_eq_true_iff.mp hjoined).2 hword.endsGap]
  · rfl

/-- The tokens of a text are those of its division. -/
theorem tokensFrom_of_divides (h : Divides text segments) (before : TokenKind) (p : Position) :
    signBehind before p text ++ tokensFrom p (cut text) = dividedTokens before p segments := by
  induction h generalizing before p with
  | @last gap hgap =>
    have htokens := tokensFrom_gap hgap p
    have hjoins := @joinsNext_gap _ _ before hgap
    have hnone : joinsNext before [] = false := rfl
    rw [List.append_nil] at htokens hjoins
    rw [cut_nil, hnone, Bool.and_false] at hjoins
    rw [signBehind, hjoins, htokens, cut_nil, dividedTokens_last]
    rfl
  | @segment s text rest segments htext hgap hword _ ih =>
    rw [htext, signBehind_segment hgap hword, tokensFrom_gap hgap, tokensFrom_lexeme hword, ih,
      dividedTokens, Segment.token, Segment.text, Position.afterAll_append]

theorem tokensOf_scan_of_divides {source : String} (h : Divides source.toList segments) :
    tokensOf (scan source) = dividedTokens .eof .origin segments := by
  have hsign : signBehind .eof .origin source.toList = [] := signBehind_eq_nil ⟨nofun, nofun⟩
  rw [tokensOf_scan, ← tokensFrom_of_divides h, hsign, List.nil_append]

/-! ## What the segments say of the tokens -/

theorem Segment.kind_of_mem_sign {s : Segment} {t : Token} (ht : t ∈ s.sign before p) :
    t.kind = .implicitStar := by
  unfold Segment.sign at ht
  split at ht
  · rw [List.mem_singleton.mp ht]
    rfl
  · cases ht

theorem IsLexeme.kind_ne (h : IsLexeme kind word rest) : kind ≠ .eof ∧ kind ≠ .implicitStar := by
  cases h with
  | word hword => exact ⟨by rintro rfl; exact hword, by rintro rfl; exact hword⟩
  | stray => exact ⟨nofun, nofun⟩

theorem Divides.kind_ne_implicitStar (h : Divides text segments) :
    ∀ s ∈ segments, s.kind ≠ .implicitStar := by
  induction h with
  | last => exact List.forall_mem_singleton.mpr nofun
  | segment _ _ hword _ ih => exact List.forall_mem_cons.mpr ⟨hword.kind_ne.2, ih⟩

/-- The first segment is the mark of the end, or it holds a lexeme and others follow. -/
theorem Divides.cons_cases {s : Segment} (h : Divides text (s :: segments)) :
    (segments = [] ∧ s.kind = .eof ∧ s.word = []) ∨
      ∃ rest, text = s.gap ++ (s.word ++ rest) ∧ IsLexeme s.kind s.word rest ∧
        Divides rest segments := by
  cases h with
  | last => exact .inl ⟨rfl, rfl, rfl⟩
  | segment htext _ hword h => exact .inr ⟨_, htext, hword, h⟩

/-- What is left of a division divides what is left of the text. -/
theorem Divides.tail_of_append {front tail : List Segment} (h : Divides text (front ++ tail))
    (hne : tail ≠ []) : Divides (written tail) tail := by
  induction front generalizing text with
  | nil => rwa [h.written_eq] at h
  | cons s front ih =>
    rw [List.cons_append] at h
    rcases h.cons_cases with ⟨hnil, -⟩ | ⟨rest, -, -, h⟩
    · exact absurd (List.append_eq_nil_iff.mp hnil).2 hne
    · exact ih h

/-- The tokens end with the mark of the end, and have no other. -/
theorem Divides.exists_row (h : Divides text segments) (before : TokenKind) (p : Position) :
    ∃ row, dividedTokens before p segments = row ++ [.eof (p.afterAll text)] ∧
      ∀ t ∈ row, t.kind ≠ .eof := by
  induction h generalizing before p with
  | last => exact ⟨[], dividedTokens_last .., nofun⟩
  | @segment s text rest segments htext _ hword _ ih =>
    obtain ⟨row, hrow, heof⟩ := ih s.kind (p.afterAll s.text)
    refine ⟨s.sign before p ++ s.token p :: row, ?_, ?_⟩
    · have hstop : p.afterAll text = (p.afterAll s.text).afterAll rest := by
        rw [htext, ← List.append_assoc, Position.afterAll_append, Segment.text]
      rw [dividedTokens, hrow, hstop, List.append_assoc, List.cons_append]
    · refine List.forall_mem_append.mpr ⟨fun t ht => ?_, ?_⟩
      · rw [Segment.kind_of_mem_sign ht]
        decide
      · exact List.forall_mem_cons.mpr ⟨hword.kind_ne.1, heof⟩

/-- The written tokens are the lexemes. -/
theorem words_dividedTokens (h : ∀ s ∈ segments, s.kind ≠ .implicitStar) (before : TokenKind)
    (p : Position) :
    (withoutSigns (dividedTokens before p segments)).map (fun t => (t.kind, t.text)) =
      segments.map fun s => (s.kind, .ofList s.word) := by
  induction segments generalizing before p with
  | nil => rfl
  | cons s segments ih =>
    obtain ⟨hs, hsegments⟩ := List.forall_mem_cons.mp h
    have htoken : (s.token p).kind ≠ .implicitStar := hs
    rw [dividedTokens, withoutSigns_append, withoutSigns_cons htoken,
      withoutSigns_eq_nil fun t => Segment.kind_of_mem_sign, List.nil_append, List.map_cons,
      ih hsegments, List.map_cons]
    rfl

/-- The tokens of segments lie where some of their text ends. -/
theorem forall_place_dividedTokens {P : Position → Prop}
    (h : ∀ read, read <+: written segments → P (p.afterAll read)) :
    ∀ t ∈ dividedTokens before p segments, P t.span.start ∧ P t.span.stop := by
  induction segments generalizing before p with
  | nil => exact nofun
  | cons s segments ih =>
    have hgap : P (p.afterAll s.gap) := h _ (by rw [written_cons]; exact List.prefix_append _ _)
    have htext : P (p.afterAll s.text) := h _ (List.prefix_append s.text (written segments))
    have hrest : ∀ read, read <+: written segments → P ((p.afterAll s.text).afterAll read) := by
      intro read hread
      rw [← Position.afterAll_append]
      exact h _ ((List.prefix_append_right_inj s.text).mpr hread)
    rw [dividedTokens]
    refine List.forall_mem_append.mpr ⟨fun t ht => ?_, List.forall_mem_cons.mpr
      ⟨⟨hgap, htext⟩, ih hrest⟩⟩
    unfold Segment.sign at ht
    split at ht
    · obtain rfl := List.mem_singleton.mp ht
      exact ⟨hgap, hgap⟩
    · cases ht

/-- Behind the token of a segment there are those of the segments behind it. -/
theorem exists_dividedTokens_eq (before : TokenKind) (p : Position) (front : List Segment)
    (s : Segment) (back : List Segment) :
    ∃ ts q, dividedTokens before p (front ++ s :: back) =
      ts ++ s.token q :: dividedTokens s.kind (q.afterAll s.text) back := by
  induction front generalizing before p with
  | nil => exact ⟨s.sign before p, p, rfl⟩
  | cons first front ih =>
    obtain ⟨ts, q, hsplit⟩ := ih first.kind (p.afterAll first.text)
    refine ⟨first.sign before p ++ first.token p :: ts, q, ?_⟩
    rw [List.cons_append, dividedTokens, hsplit, List.append_assoc, List.cons_append]

/-! ## From a token to its segment -/

section Split

variable {front back : List Token} {t : Token}

/-- What a list begins with and the element found are apart, so the element is in the rest. -/
theorem exists_split_of_append {α : Type} {P : α → Prop} {first second front back : List α} {a : α}
    (heq : first ++ second = front ++ a :: back) (hfirst : ∀ x ∈ first, ¬ P x) (ha : P a) :
    ∃ more, front = first ++ more ∧ second = more ++ a :: back := by
  rcases List.append_eq_append_iff.mp heq with ⟨more, hfront, hsecond⟩ | ⟨more, hfirst', hback⟩
  · exact ⟨more, hfront, hsecond⟩
  · cases more with
    | nil => exact ⟨[], by simpa using hfirst'.symm, by simpa using hback.symm⟩
    | cons x more =>
      obtain ⟨rfl, -⟩ := List.cons.inj hback
      exact absurd ha (hfirst a (by simp [hfirst']))

/-- A token that is written is that of a segment: of the one that has as many segments in front as
the token has written tokens. -/
theorem exists_segment_of_dividedTokens (hkind : ∀ s ∈ segments, s.kind ≠ .implicitStar)
    (heq : dividedTokens before p segments = front ++ t :: back) (ht : t.kind ≠ .implicitStar) :
    ∃ init s rest, segments = init ++ s :: rest ∧ init.length = (withoutSigns front).length ∧
      t = s.token (p.afterAll (written init)) ∧
      back = dividedTokens s.kind (p.afterAll (written init ++ s.text)) rest := by
  induction segments generalizing before p front with
  | nil => exact absurd heq (by simp [dividedTokens])
  | cons s segments ih =>
    obtain ⟨hs, hsegments⟩ := List.forall_mem_cons.mp hkind
    have hsign : ∀ u ∈ s.sign before p, ¬ u.kind ≠ .implicitStar := fun u hu hne =>
      hne (Segment.kind_of_mem_sign hu)
    obtain ⟨more, rfl, hmore⟩ := exists_split_of_append heq hsign ht
    rw [withoutSigns_append, withoutSigns_eq_nil fun u => Segment.kind_of_mem_sign,
      List.nil_append]
    cases more with
    | nil =>
      obtain ⟨rfl, rfl⟩ := List.cons.inj hmore
      exact ⟨[], s, segments, rfl, rfl, rfl, rfl⟩
    | cons u more =>
      obtain ⟨rfl, hrest⟩ := List.cons.inj hmore
      have htoken : (s.token p).kind ≠ .implicitStar := hs
      have hwritten : ∀ init, written (s :: init) = s.text ++ written init := fun init => rfl
      obtain ⟨init, next, rest, rfl, hlength, rfl, rfl⟩ := ih hsegments hrest
      refine ⟨s :: init, next, rest, rfl, ?_, ?_, ?_⟩
      · rw [withoutSigns_cons htoken, List.length_cons, List.length_cons, hlength]
      · rw [hwritten, Position.afterAll_append]
      · rw [hwritten, List.append_assoc, Position.afterAll_append p s.text]

/-- A sign nobody wrote stands where the token behind it begins, which is written. -/
theorem exists_next_of_dividedTokens (hkind : ∀ s ∈ segments, s.kind ≠ .implicitStar)
    (heq : dividedTokens before p segments = front ++ t :: back) (ht : t.kind = .implicitStar) :
    ∃ u rest, back = u :: rest ∧ u.kind ≠ .implicitStar ∧ t = .implicitStar u.start := by
  induction segments generalizing before p front with
  | nil => exact absurd heq (by simp [dividedTokens])
  | cons s segments ih =>
    obtain ⟨hs, hsegments⟩ := List.forall_mem_cons.mp hkind
    rw [dividedTokens, Segment.sign] at heq
    split at heq
    · cases front with
      | nil =>
        obtain ⟨rfl, rfl⟩ := List.cons.inj heq
        exact ⟨s.token p, _, rfl, hs, rfl⟩
      | cons u front =>
        have htail := (List.cons.inj heq).2
        cases front with
        | nil =>
          obtain ⟨rfl, -⟩ := List.cons.inj htail
          exact absurd ht hs
        | cons v front => exact ih hsegments (List.cons.inj htail).2
    · cases front with
      | nil =>
        obtain ⟨rfl, -⟩ := List.cons.inj heq
        exact absurd ht hs
      | cons u front => exact ih hsegments (List.cons.inj heq).2

end Split

/-! ## Scanning loses nothing -/

/-- The segments are what a text is divided into, and scanning finds all of their lexemes. -/
structure Lossless (source : String) (segments : List Segment) : Prop where
  divides : Divides source.toList segments
  only : ∀ others, Divides source.toList others → others = segments
  fills : source.toList = written segments
  /-- One token marks the end, at the end of the text, and no other does. -/
  ends : ∃ row, tokensOf (scan source) =
      row ++ [.eof (placeOf source.toList source.toList.length)] ∧ ∀ t ∈ row, t.kind ≠ .eof
  /-- The other tokens, but for the signs nobody wrote, are the lexemes in order. -/
  words : (withoutSigns (tokensOf (scan source))).map (fun t => (t.kind, t.text)) =
      segments.map fun s => (s.kind, .ofList s.word)
  /-- No lexeme could be longer. -/
  longest : ∀ front s behind, segments = front ++ s :: behind →
    ¬ s.kind.GoesOn s.word (written behind)

/-- Every text is divided in one way into gaps and the lexemes that scanning finds. -/
theorem exists_lossless (source : String) : ∃ segments, Lossless source segments := by
  obtain ⟨segments, h⟩ := exists_divides source.toList
  have htokens := tokensOf_scan_of_divides h
  obtain ⟨row, hrow, heof⟩ := h.exists_row .eof .origin
  refine ⟨segments, h, fun others hothers => hothers.unique h, h.written_eq, ⟨row, ?_, heof⟩, ?_, ?_⟩
  · rw [htokens, hrow, placeOf, List.take_length]
  · rw [htokens, words_dividedTokens h.kind_ne_implicitStar]
  · rintro front s behind rfl
    have htail := h.tail_of_append (List.cons_ne_nil s behind)
    rcases htail.cons_cases with ⟨-, heof, -⟩ | ⟨rest, -, hword, hrest⟩
    · rw [heof]
      exact id
    · rw [hrest.written_eq] at hword
      exact hword.not_goesOn

end Precedence

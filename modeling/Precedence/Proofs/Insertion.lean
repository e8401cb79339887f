import Precedence.Proofs.Alike
import Precedence.Proofs.DividedTokens

/-!
# Texts with something put in

Some characters belong to no word but perhaps to the one that is nothing else: white space and
parentheses are such (`Solitary`). One of them put in behind a lexeme neither goes on with it nor
makes room for another to go on, so a text keeps its lexemes up to the place (`Divides.insert`), and
all that is to be seen to is how the text is divided from the place on.

The words of the tokens follow from the lexemes and from which gaps are nothing but white space
(`words_eq_dividedWords`).
-/

namespace Precedence

/-- The character is in no word, or in none but the word that is the character. -/
def Solitary (c : Char) : Prop :=
  ∀ (kind : TokenKind) (word : List Char), kind.IsWord word → c ∈ word → word = [c]

/-- The text with more of it put in at an offset. -/
def putIn (source : String) (i : Nat) (more : String) : String :=
  .ofList (source.toList.take i ++ (more.toList ++ source.toList.drop i))

/-- The lexemes of the tokens `mid`, which come behind the tokens `pre`, lie in the text from an
offset up to another. The signs nobody wrote among the tokens have no lexeme. -/
inductive Fills (source : String) (pre mid : List Token) : Nat → Nat → Prop
  | intro {front middle back : List Segment} {s : Segment}
      (h : Divides source.toList (front ++ s :: (middle ++ back)))
      (hpre : front.length = (withoutSigns pre).length)
      (hmid : (s :: middle).length = (withoutSigns mid).length) :
      Fills source pre mid (written front ++ s.gap).length (written (front ++ s :: middle)).length

variable {c x : Char} {gap word before behind behind' more text : List Char} {kind : TokenKind}
  {front tail tail' : List Segment}

/-! ## Characters by themselves -/

/-- The words of several characters are numbers, names and a sign for inequality. -/
theorem solitary_of_not (hname : continuesIdentifier c = false) (hsign : c ∉ ['.', '!', '=']) :
    Solitary c := by
  obtain ⟨hpoint, hbang, hequals⟩ : c ≠ '.' ∧ c ≠ '!' ∧ c ≠ '=' := by simpa using hsign
  have hdigit := not_isAsciiDigit_of_not_continuesIdentifier hname
  have hdigits : ∀ {digits}, IsDigits digits → c ∉ digits := fun h hmem => by
    rw [h.2 c hmem] at hdigit
    cases hdigit
  have hsingle : ∀ d, c ∈ [d] → [d] = [c] := fun d hmem => by rw [List.mem_singleton.mp hmem]
  intro kind word hword hmem
  cases kind with
  | eof | error | implicitStar => cases hword
  | number =>
    cases hword with
    | whole h => exact absurd hmem (hdigits h)
    | point h hplaces =>
      exact absurd hmem (by simp [hdigits h, hdigits hplaces, hpoint])
  | identifier =>
    cases word with
    | nil => cases hword
    | cons first rest =>
      obtain ⟨hfirst, hrest⟩ := Bool.and_eq_true_iff.mp hword
      rcases List.mem_cons.mp hmem with rfl | hmem
      · simp [continuesIdentifier, hfirst] at hname
      · rw [List.all_eq_true.mp hrest c hmem] at hname
        cases hname
  | star | slash => rcases hword with rfl | rfl <;> exact hsingle _ hmem
  | notEquals =>
    rcases hword with rfl | rfl
    · exact absurd hmem (by simp [hbang, hequals])
    · exact hsingle _ hmem
  | openParen | closeParen | comma | plus | dash | caret | equals =>
    obtain rfl := hword
    exact hsingle _ hmem

theorem solitary_of_isSpace (h : isSpace c = true) : Solitary c := by
  rcases isSpace_iff.mp h with hblank | rfl
  · rcases isBlank_iff.mp hblank with rfl | rfl | rfl | rfl | rfl <;>
      exact solitary_of_not (by decide) (by decide)
  · exact solitary_of_not (by decide) (by decide)

theorem solitary_openParen : Solitary '(' := solitary_of_not (by decide) (by decide)

theorem solitary_closeParen : Solitary ')' := solitary_of_not (by decide) (by decide)

/-! ## Lexemes and gaps in front of the place -/

theorem prefix_of_prefix_append_cons (hx : x ∉ more) (h : more <+: before ++ x :: behind) :
    more <+: before := by
  rcases List.prefix_or_prefix_of_prefix h (List.prefix_append before _) with hle | ⟨rest, rfl⟩
  · exact hle
  · cases rest with
    | nil => simp
    | cons y rest =>
      obtain ⟨rfl, -⟩ := List.cons_prefix_cons.mp ((List.prefix_append_right_inj before).mp h)
      exact absurd (List.mem_append_right _ (.head _)) hx

/-- A lexeme stays one with a solitary character put in behind it. -/
theorem IsLexeme.insert (hx : Solitary x) (h : IsLexeme kind word (before ++ behind)) :
    IsLexeme kind word (before ++ x :: behind') := by
  cases h with
  | word hword hlongest =>
    refine .word hword fun more hmore hlonger => ?_
    by_cases hmem : x ∈ word ++ more
    · have hlength := congrArg List.length (hx _ _ hlonger hmem)
      obtain ⟨c, tail, rfl, -⟩ := exists_cons_of_isWord hword
      simp only [List.length_append, List.length_cons, List.length_nil] at hlength
      exact List.eq_nil_of_length_eq_zero (by omega)
    · have hfront := prefix_of_prefix_append_cons (mt (List.mem_append_right _) hmem) hmore
      exact hlongest more (hfront.trans (List.prefix_append _ _)) hlonger
  | @stray c _ hspace hcomment hnone =>
    refine .stray hspace hcomment fun kind word hword hfront => hnone kind word hword ?_
    by_cases hmem : x ∈ word
    · rw [hx _ _ hword hmem] at hfront ⊢
      obtain ⟨rfl, -⟩ := List.cons_prefix_cons.mp hfront
      exact List.cons_prefix_cons.mpr ⟨rfl, List.nil_prefix⟩
    · rw [← List.cons_append] at hfront ⊢
      exact (prefix_of_prefix_append_cons hmem hfront).trans (List.prefix_append _ _)

/-- A gap in front of a lexeme is one in front of anything: it leaves no comment open. -/
theorem IsGap.anywhere (h : IsGap gap behind) (hends : EndsGap behind) (hne : behind ≠ []) :
    IsGap gap behind' := by
  induction h with
  | nil => exact .nil
  | space hc _ ih => exact .space hc (ih hends hne)
  | @comment body gap behind hbody hend _ ih =>
    refine .comment hbody ?_ (ih hends hne)
    cases gap with
    | nil =>
      obtain ⟨c, tail, rfl⟩ := List.exists_cons_of_ne_nil hne
      have hspace := (hends c rfl).1
      rw [hend c rfl] at hspace
      cases hspace
    | cons c gap => exact hend

theorem IsLexeme.word_ne_nil (h : IsLexeme kind word behind) : word ≠ [] := by
  obtain ⟨c, tail, rfl, -⟩ := h.exists_cons
  exact List.cons_ne_nil c tail

theorem IsGap.anywhere_of_isLexeme (h : IsGap gap (word ++ behind))
    (hword : IsLexeme kind word behind) : IsGap gap behind' :=
  h.anywhere hword.endsGap (List.append_ne_nil_of_left_ne_nil hword.word_ne_nil _)

/-- Where a lexeme has others behind it, it is one that is written. -/
theorem Divides.of_cons {s : Segment} (h : Divides text (s :: tail)) (hne : tail ≠ []) :
    IsGap s.gap (s.word ++ written tail) ∧ IsLexeme s.kind s.word (written tail) ∧
      Divides (written tail) tail := by
  cases h with
  | last => exact absurd rfl hne
  | segment _ hgap hword h =>
    rw [h.written_eq] at hgap hword h
    exact ⟨hgap, hword, h⟩

/-- With a solitary character put in, a text is divided in front of the place as it was. -/
theorem Divides.insert (hx : Solitary x) (h : Divides text (front ++ tail)) (hne : tail ≠ [])
    (htail : written tail = before ++ behind) (hdivides : Divides (before ++ x :: behind') tail') :
    Divides (written front ++ (before ++ x :: behind')) (front ++ tail') := by
  induction front generalizing text with
  | nil => exact hdivides
  | cons s front ih =>
    rw [List.cons_append] at h
    obtain ⟨hgap, hword, h⟩ := h.of_cons (List.append_ne_nil_of_right_ne_nil front hne)
    have hgap' : ∀ behind', IsGap s.gap behind' := fun _ => hgap.anywhere_of_isLexeme hword
    rw [written_append, htail, ← List.append_assoc] at hword
    have hword' : IsLexeme s.kind s.word ((written front ++ before) ++ x :: behind') :=
      hword.insert hx
    rw [List.append_assoc] at hword'
    exact .segment (by simp) (hgap' _) hword' (ih h)

theorem toList_putIn {source : String} {front back : List Char}
    (h : source.toList = front ++ back) (more : String) :
    (putIn source front.length more).toList = front ++ (more.toList ++ back) := by
  rw [putIn, String.toList_ofList, h, List.take_left, List.drop_left]

/-! ## Words of the tokens -/

/-- The multiplication sign nobody wrote in front of the lexeme, behind one of the kind. -/
def Segment.signWords (before : TokenKind) (s : Segment) : List (TokenKind × String) :=
  if s.isJoined before then [(.implicitStar, "*")] else []

/-- The words of the tokens of segments, behind a lexeme of the kind. -/
def dividedWords (before : TokenKind) : List Segment → List (TokenKind × String)
  | [] => []
  | s :: rest => s.signWords before ++ (s.kind, .ofList s.word) :: dividedWords s.kind rest

/-- The kind of the last lexeme, if there is one, and otherwise that of the one before. -/
def lastKind (before : TokenKind) (segments : List Segment) : TokenKind :=
  (segments.getLast?.map Segment.kind).getD before

section Words

variable {before : TokenKind} {p : Position} {segments : List Segment}

theorem words_append (ts us : List Token) : words (ts ++ us) = words ts ++ words us :=
  List.map_append

theorem words_sign (before : TokenKind) (p : Position) (s : Segment) :
    words (s.sign before p) = s.signWords before := by
  rw [Segment.sign, Segment.signWords]
  split <;> rfl

/-- The places of the tokens do not matter to their words. -/
theorem words_eq_dividedWords (before : TokenKind) (p : Position) (segments : List Segment) :
    words (dividedTokens before p segments) = dividedWords before segments := by
  induction segments generalizing before p with
  | nil => rfl
  | cons s rest ih =>
    rw [dividedTokens, words_append, words_sign, dividedWords, ← ih s.kind (p.afterAll s.text)]
    rfl

theorem lastKind_cons (before : TokenKind) (s : Segment) (rest : List Segment) :
    lastKind before (s :: rest) = lastKind s.kind rest := by
  cases rest <;> rfl

theorem lastKind_append (before : TokenKind) (front back : List Segment) :
    lastKind before (front ++ back) = lastKind (lastKind before front) back := by
  induction front generalizing before with
  | nil => rfl
  | cons s front ih => rw [List.cons_append, lastKind_cons, ih, lastKind_cons]

theorem dividedWords_append (before : TokenKind) (front back : List Segment) :
    dividedWords before (front ++ back) =
      dividedWords before front ++ dividedWords (lastKind before front) back := by
  induction front generalizing before with
  | nil => rfl
  | cons s front ih =>
    rw [List.cons_append, dividedWords, dividedWords, ih, lastKind_cons, List.append_assoc,
      List.cons_append]

theorem words_scan_of_divides {source : String} (h : Divides source.toList segments) :
    words (tokensOf (scan source)) = dividedWords .eof segments := by
  rw [tokensOf_scan_of_divides h, words_eq_dividedWords]

/-! ## Where tokens lie -/

/-- A token that is written is that of a segment, and splits the words as the segment does. -/
theorem exists_words_split {pre post : List Token} {t : Token}
    (hkind : ∀ s ∈ segments, s.kind ≠ .implicitStar)
    (heq : dividedTokens before p segments = pre ++ t :: post) (ht : t.kind ≠ .implicitStar) :
    ∃ init s rest, segments = init ++ s :: rest ∧ init.length = (withoutSigns pre).length ∧
      words pre = dividedWords before init ++ s.signWords (lastKind before init) ∧
      (t.kind, t.text) = (s.kind, .ofList s.word) ∧ words post = dividedWords s.kind rest := by
  obtain ⟨init, s, rest, rfl, hlength, rfl, rfl⟩ := exists_segment_of_dividedTokens hkind heq ht
  refine ⟨init, s, rest, rfl, hlength, ?_, rfl, words_eq_dividedWords _ _ _⟩
  have hwords := congrArg words heq
  rw [words_eq_dividedWords, words_append, dividedWords_append, dividedWords,
    ← List.append_assoc] at hwords
  have hrest : words (s.token (p.afterAll (written init)) ::
      dividedTokens s.kind (p.afterAll (written init ++ s.text)) rest) =
        (s.kind, .ofList s.word) :: dividedWords s.kind rest :=
    congrArg _ (words_eq_dividedWords _ _ _)
  rw [hrest] at hwords
  exact (List.append_cancel_right hwords).symm

variable {source : String} {pre mid post : List Token} {i j : Nat}

/-- Tokens of a text of which one is written lie somewhere in it. -/
theorem exists_fills (htokens : tokensOf (scan source) = pre ++ (mid ++ post))
    (hmid : withoutSigns mid ≠ []) : ∃ i j, Fills source pre mid i j := by
  obtain ⟨segments, h⟩ := exists_divides source.toList
  have hlength := congrArg List.length (words_dividedTokens h.kind_ne_implicitStar .eof .origin)
  rw [← tokensOf_scan_of_divides h, htokens, withoutSigns_append, withoutSigns_append] at hlength
  simp only [List.length_map, List.length_append] at hlength
  have hpos := List.length_pos_iff.mpr hmid
  obtain ⟨s, rest, hrest⟩ :
      ∃ s rest, segments.drop (withoutSigns pre).length = s :: rest :=
    List.exists_cons_of_ne_nil (by rw [ne_eq, List.drop_eq_nil_iff]; omega)
  have hsplit : segments = segments.take (withoutSigns pre).length ++
      s :: (rest.take ((withoutSigns mid).length - 1) ++
        rest.drop ((withoutSigns mid).length - 1)) := by
    rw [List.take_append_drop, ← hrest, List.take_append_drop]
  have hcount := congrArg List.length hrest
  rw [List.length_drop, List.length_cons] at hcount
  rw [hsplit] at h
  refine ⟨_, _, .intro h ?_ ?_⟩
  · rw [List.length_take]
    omega
  · rw [List.length_cons, List.length_take]
    omega

/-- What is said of the tokens that lie in a stretch of a text, and of those before and behind, by
the segments there. -/
theorem Fills.exists_words {t : Token} (h : Fills source pre (t :: mid) i j)
    (htokens : tokensOf (scan source) = pre ++ (t :: mid ++ post)) (ht : t.kind ≠ .implicitStar)
    (hlast : ∃ v ∈ (t :: mid).getLast?, v.kind ≠ .implicitStar) (hpost : withoutSigns post ≠ []) :
    ∃ front s middle back, Divides source.toList (front ++ s :: (middle ++ back)) ∧ back ≠ [] ∧
      i = (written front ++ s.gap).length ∧ j = (written (front ++ s :: middle)).length ∧
      words pre = dividedWords .eof front ++ s.signWords (lastKind .eof front) ∧
      words (t :: mid) = (s.kind, .ofList s.word) :: dividedWords s.kind middle ∧
      words post = dividedWords (lastKind s.kind middle) back := by
  obtain @⟨front, middle, back, s, hdivides, hpre, hmid⟩ := h
  have hkind := hdivides.kind_ne_implicitStar
  rw [tokensOf_scan_of_divides hdivides, List.cons_append] at htokens
  obtain ⟨init, s₁, rest, hsplit, hlength, hwords, hword, hrest⟩ :=
    exists_words_split hkind htokens ht
  obtain ⟨rfl, htail⟩ := List.append_inj hsplit (hpre.trans hlength.symm)
  obtain ⟨rfl, rfl⟩ := List.cons.inj htail
  -- The last of the tokens is that of the last segment, so the rest begins behind it.
  obtain ⟨v, hv, hvkind⟩ := hlast
  obtain ⟨most, hmost⟩ := List.getLast?_eq_some_iff.mp hv
  have hbehind : dividedTokens .eof .origin ((front ++ s :: middle) ++ back) =
      (pre ++ most) ++ v :: post := by
    rw [List.append_assoc, List.cons_append, htokens, ← List.cons_append, hmost]
    simp
  have hcount : (withoutSigns (t :: mid)).length = (withoutSigns most).length + 1 := by
    rw [hmost, withoutSigns_append, withoutSigns_cons hvkind, List.length_append]
    rfl
  obtain ⟨init, s₂, back', hsplit, hlength, -, -, hpostwords⟩ :=
    exists_words_split (by simpa using hkind) hbehind hvkind
  rw [withoutSigns_append, List.length_append] at hlength
  rw [List.append_cons init s₂ back'] at hsplit
  obtain ⟨hinit, rfl⟩ := List.append_inj hsplit (by
    simp only [List.length_append, List.length_cons, List.length_nil] at hmid ⊢
    omega)
  have hlastKind : s₂.kind = lastKind s.kind middle := by
    have heq := congrArg (lastKind .eof) hinit
    rw [lastKind_append, lastKind_cons, lastKind_append] at heq
    exact heq.symm
  rw [hlastKind] at hpostwords
  refine ⟨front, s, middle, back, hdivides, ?_, rfl, rfl, hwords, ?_, hpostwords⟩
  · rintro rfl
    rw [List.map_eq_nil_iff.mp hpostwords] at hpost
    exact hpost rfl
  · rw [words_append, dividedWords_append, hpostwords] at hrest
    rw [← List.append_cancel_right hrest, ← hword]
    rfl

end Words

theorem kind_ne_error_of_words_eq {ts us : List Token} (h : words ts = words us)
    (hus : ∀ u ∈ us, u.kind ≠ .error) : ∀ t ∈ ts, t.kind ≠ .error := by
  intro t ht hk
  have hmem : (t.kind, t.text) ∈ words us := by
    rw [← h]
    exact List.mem_map_of_mem ht
  obtain ⟨u, hu, hwords⟩ := List.mem_map.mp hmem
  exact hus u hu ((Prod.mk.inj hwords).1.trans hk)

/-- A text is parsed as any tokens of its words are, places apart, if none of them is a stray
character. -/
theorem withoutPlaces_parseWithin_of_words {source : String} {tokens : List Token}
    (herror : ∀ t ∈ tokens, t.kind ≠ .error) (h : words (tokensOf (scan source)) = words tokens)
    (maxDepth : Nat) :
    withoutPlaces (parseWithin maxDepth source) =
      withoutPlaces (parseTokens .arithmetic maxDepth tokens) := by
  have hfaults : faultsOf (scan source) = [] := faultsOf_eq_nil (kind_ne_error_of_words_eq h herror)
  rw [parseWithin, tokenize, hfaults]
  exact withoutPlaces_parseTokens_congr h

end Precedence

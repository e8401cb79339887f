import Precedence.Proofs.Word
import Precedence.Proofs.Pieces

/-!
# The division of a text

How a text falls into lexemes and the gaps between them, said without a scanner (`Divides`). A gap is
made of white space and comments. A lexeme is a word of its kind that could not be longer, or a
single character at which nothing else begins. The mark of the end counts as the last lexeme, of no
characters, so that there is a gap in front of every lexeme and none behind the last.

Every text has a division (`exists_divides`) and no more than one (`Divides.unique`): neither white
space nor a number sign begins a word, so a gap ends where it must, and of the words of a kind the
longest is taken.
-/

namespace Precedence

/-- White space and comments, in front of what stands behind. A comment reaches up to the end of its
line or of the text. -/
inductive IsGap : List Char → List Char → Prop
  | nil {behind : List Char} : IsGap [] behind
  | space {c : Char} {gap behind : List Char} (hc : isSpace c = true) (h : IsGap gap behind) :
      IsGap (c :: gap) behind
  | comment {body gap behind : List Char} (hbody : '\n' ∉ body)
      (hend : ∀ c ∈ (gap ++ behind).head?, c = '\n') (h : IsGap gap behind) :
      IsGap ('#' :: (body ++ gap)) behind

/-- No word begins the text. -/
def NoWord (text : List Char) : Prop :=
  ∀ (kind : TokenKind) (word : List Char), kind.IsWord word → ¬ word <+: text

/-- A lexeme in front of what stands behind. -/
inductive IsLexeme : TokenKind → List Char → List Char → Prop
  /-- A word that does not go on behind. -/
  | word {kind : TokenKind} {word behind : List Char} (hword : kind.IsWord word)
      (hlongest : ∀ more, more <+: behind → kind.IsWord (word ++ more) → more = []) :
      IsLexeme kind word behind
  /-- A character at which nothing begins. -/
  | stray {c : Char} {behind : List Char} (hspace : isSpace c = false) (hcomment : c ≠ '#')
      (hnone : NoWord (c :: behind)) : IsLexeme .error [c] behind

/-- What stands behind the word goes on with it: a digit with a number, a point and a digit with a
number that has no point yet, a letter, a digit of any script or an underscore with a name. -/
def TokenKind.GoesOn : TokenKind → List Char → List Char → Prop
  | .number, word, behind => (∃ d ∈ behind.head?, isAsciiDigit d = true) ∨
      '.' ∉ word ∧ ∃ d rest, behind = '.' :: d :: rest ∧ isAsciiDigit d = true
  | .identifier, _, behind => ∃ c ∈ behind.head?, continuesIdentifier c = true
  | _, _, _ => False

/-- A lexeme with the gap in front of it. -/
structure Segment where
  gap : List Char
  kind : TokenKind
  word : List Char
deriving DecidableEq, Repr

def Segment.text (s : Segment) : List Char := s.gap ++ s.word

/-- The text that the segments fill. -/
def written (segments : List Segment) : List Char := segments.flatMap Segment.text

@[simp] theorem written_nil : written [] = [] := rfl

@[simp] theorem written_cons (s : Segment) (segments : List Segment) :
    written (s :: segments) = s.gap ++ (s.word ++ written segments) := by
  simp [written, Segment.text]

@[simp] theorem written_append (s t : List Segment) : written (s ++ t) = written s ++ written t :=
  List.flatMap_append

/-- The segments are the lexemes of the text with the gaps in front of them. The last one is the
mark of the end. -/
inductive Divides : List Char → List Segment → Prop
  | last {gap : List Char} (hgap : IsGap gap []) : Divides gap [⟨gap, .eof, []⟩]
  | segment {s : Segment} {text rest : List Char} {segments : List Segment}
      (htext : text = s.gap ++ (s.word ++ rest)) (hgap : IsGap s.gap (s.word ++ rest))
      (hword : IsLexeme s.kind s.word rest) (h : Divides rest segments) :
      Divides text (s :: segments)

variable {c : Char} {gap word rest behind text : List Char} {kind : TokenKind}
  {segments segments' : List Segment}

/-! ## Gaps -/

theorem isGap_of_isSpace (h : ∀ c ∈ gap, isSpace c = true) : IsGap gap behind := by
  induction gap with
  | nil => exact .nil
  | cons c gap ih =>
    obtain ⟨hc, hgap⟩ := List.forall_mem_cons.mp h
    exact .space hc (ih hgap)

theorem IsGap.append {before : List Char} (h : IsGap before (gap ++ behind))
    (hgap : IsGap gap behind) : IsGap (before ++ gap) behind := by
  generalize heq : gap ++ behind = more at h
  induction h with
  | nil => exact hgap
  | space hc _ ih => exact .space hc (ih heq)
  | @comment body before more hbody hend _ ih =>
    rw [List.cons_append, List.append_assoc]
    refine .comment hbody ?_ (ih heq)
    rwa [List.append_assoc, heq]

/-- No gap begins where the text does. -/
def EndsGap (behind : List Char) : Prop :=
  ∀ c ∈ behind.head?, isSpace c = false ∧ c ≠ '#'

/-- A row of characters that ends at the first of a sort is told from the whole. -/
theorem eq_of_stops (stops : Char → Bool) {s t s' t' : List Char} (hs : ∀ c ∈ s, stops c = false)
    (ht : ∀ c ∈ t.head?, stops c = true) (hs' : ∀ c ∈ s', stops c = false)
    (ht' : ∀ c ∈ t'.head?, stops c = true) (h : s ++ t = s' ++ t') : s = s' := by
  have hrow : ∀ {s t : List Char}, (∀ c ∈ s, stops c = false) → (∀ c ∈ t.head?, stops c = true) →
      (s ++ t).takeWhile (!stops ·) = s := by
    intro s t hs ht
    have hnone : t.takeWhile (!stops ·) = [] := by
      cases t with
      | nil => rfl
      | cons c t => simp [ht c rfl]
    rw [List.takeWhile_append_of_pos (by simpa using hs), hnone, List.append_nil]
  rw [← hrow hs ht, h, hrow hs' ht']

/-- What a comment is made of ends with its line. -/
theorem eq_of_lines {s t s' t' : List Char} (hs : '\n' ∉ s) (ht : ∀ c ∈ t.head?, c = '\n')
    (hs' : '\n' ∉ s') (ht' : ∀ c ∈ t'.head?, c = '\n') (h : s ++ t = s' ++ t') : s = s' := by
  have hline : ∀ {s : List Char}, '\n' ∉ s → ∀ c ∈ s, decide (c = '\n') = false := fun hs c hc =>
    decide_eq_false fun e => hs (e ▸ hc)
  exact eq_of_stops (· = '\n') (hline hs) (by simpa using ht) (hline hs') (by simpa using ht') h

theorem IsGap.eq_nil (h : IsGap gap behind) (hends : EndsGap (gap ++ behind)) : gap = [] := by
  cases h with
  | nil => rfl
  | @space c _ _ hc => exact absurd (hends c rfl).1 (by simp [hc])
  | comment => exact absurd rfl (hends '#' rfl).2

/-- A gap goes as far as it can. -/
theorem IsGap.unique {gap' behind' : List Char} (h : IsGap gap behind) (h' : IsGap gap' behind')
    (hends : EndsGap behind) (hends' : EndsGap behind') (heq : gap ++ behind = gap' ++ behind') :
    gap = gap' := by
  induction h generalizing gap' with
  | nil => exact (h'.eq_nil (heq ▸ hends)).symm
  | @space c gap behind hc h ih =>
    cases h' with
    | nil => exact (IsGap.space hc h).eq_nil (heq ▸ hends')
    | space _ h' =>
      obtain ⟨rfl, htail⟩ := List.cons.inj heq
      rw [ih h' hends htail]
    | comment =>
      obtain ⟨rfl, -⟩ := List.cons.inj heq
      exact absurd hc (by decide)
  | @comment body gap behind hbody hend h ih =>
    cases h' with
    | nil => exact (IsGap.comment hbody hend h).eq_nil (heq ▸ hends')
    | space hd =>
      obtain ⟨rfl, -⟩ := List.cons.inj heq
      exact absurd hd (by decide)
    | comment hbody' hend' h' =>
      rw [List.cons_append, List.cons_append, List.append_assoc, List.append_assoc] at heq
      have htail := (List.cons.inj heq).2
      obtain rfl := eq_of_lines hbody hend hbody' hend' htail
      rw [ih h' hends (List.append_cancel_left htail)]

/-! ## Lexemes -/

theorem isNumeral_concat (h : IsNumeral word) (hc : isAsciiDigit c = true) :
    IsNumeral (word ++ [c]) := by
  have hdigits : ∀ {digits : List Char}, IsDigits digits → IsDigits (digits ++ [c]) := fun h =>
    ⟨by simp, List.forall_mem_append.mpr ⟨h.2, List.forall_mem_singleton.mpr hc⟩⟩
  cases h with
  | whole h => exact .whole (hdigits h)
  | point h hplaces =>
    rw [List.append_assoc]
    exact .point h (hdigits hplaces)

/-- A lexeme does not go on behind. -/
theorem IsLexeme.not_goesOn (h : IsLexeme kind word behind) : ¬ kind.GoesOn word behind := by
  intro hmore
  cases h with
  | stray => exact hmore
  | word hword hlongest =>
    cases kind with
    | number =>
      rcases hmore with ⟨d, hhead, hd⟩ | ⟨hpoint, d, rest, rfl, hd⟩
      · obtain ⟨rest, rfl⟩ := List.head?_eq_some_iff.mp hhead
        exact absurd (hlongest [d] ⟨rest, rfl⟩ (isNumeral_concat hword hd)) (by simp)
      · cases hword with
        | whole h => exact absurd (hlongest ['.', d] ⟨rest, rfl⟩
            (.point h ⟨by simp, List.forall_mem_singleton.mpr hd⟩)) (by simp)
        | point => exact hpoint (by simp)
    | identifier =>
      obtain ⟨c, hhead, hc⟩ := hmore
      obtain ⟨rest, rfl⟩ := List.head?_eq_some_iff.mp hhead
      cases word with
      | nil => cases hword
      | cons first word =>
        refine absurd (hlongest [c] ⟨rest, rfl⟩ ?_) (by simp)
        simp only [TokenKind.IsWord, isName, Bool.and_eq_true] at hword
        simp [TokenKind.IsWord, isName, hword, hc]
    | _ => exact hmore

/-- The rule of its kind claims the lexeme and no more. -/
theorem ruleFor?_of_longest (hword : kind.IsWord word)
    (hlongest : ∀ more, more <+: rest → kind.IsWord (word ++ more) → more = []) :
    ∃ pattern, ruleFor? (word ++ rest) = some ⟨pattern, .emit kind⟩ ∧
      (word ++ rest).take (pattern (word ++ rest)) = word := by
  obtain ⟨pattern, hrule⟩ := ruleFor?_of_isWord hword rest
  have htakes := takesLongest_of_ruleFor? hrule
  have htaken := htakes.isWord (pos_of_ruleFor? hrule)
  have hsplit : (word ++ rest).take (pattern (word ++ rest)) =
      word ++ rest.take (pattern (word ++ rest) - word.length) := by
    rw [List.take_append, List.take_of_length_le (htakes.length_le hword rest)]
  refine ⟨pattern, hrule, ?_⟩
  rw [hsplit] at htaken ⊢
  rw [hlongest _ (List.take_prefix _ _) htaken, List.append_nil]

/-- At a stray character no rule applies. -/
theorem ruleFor?_of_stray (hspace : isSpace c = false) (hcomment : c ≠ '#')
    (hnone : NoWord (c :: rest)) : ruleFor? (c :: rest) = none := by
  cases hrule : ruleFor? (c :: rest) with
  | none => rfl
  | some rule =>
    obtain ⟨pattern, action⟩ := rule
    cases action with
    | newline =>
      obtain rfl := eq_newline_of_ruleFor? hrule
      exact absurd hspace (by decide)
    | ignore =>
      rcases head_of_ruleFor?_ignore hrule with ⟨hblank, -⟩ | ⟨rfl, -⟩
      · rw [isSpace, hblank] at hspace
        cases hspace
      · exact absurd rfl hcomment
    | emit kind =>
      have hword := (takesLongest_of_ruleFor? hrule).isWord (pos_of_ruleFor? hrule)
      exact absurd (List.take_prefix _ _) (hnone kind _ hword)

/-- A lexeme is the piece that the text begins with. -/
theorem cut_word (hword : kind.IsWord word)
    (hlongest : ∀ more, more <+: rest → kind.IsWord (word ++ more) → more = []) :
    cut (word ++ rest) = .lexeme kind word :: cut rest := by
  obtain ⟨pattern, hrule, htake⟩ := ruleFor?_of_longest hword hlongest
  obtain ⟨c, tail, rfl, -⟩ := exists_cons_of_isWord hword
  rw [List.cons_append] at hrule htake ⊢
  have hfirst : firstPiece c (tail ++ rest) = .lexeme kind (c :: tail) := by
    rw [firstPiece, hrule]
    exact congrArg (Piece.lexeme kind) htake
  rw [cut_cons, hfirst, ← List.cons_append]
  exact congrArg _ (congrArg cut (@List.drop_left _ (c :: tail) rest))

theorem cut_stray (hrule : ruleFor? (c :: rest) = none) :
    cut (c :: rest) = .stray c :: cut rest := by
  have hfirst : firstPiece c rest = .stray c := by rw [firstPiece, hrule]
  rw [cut_cons, hfirst]
  rfl

theorem IsLexeme.exists_cons (h : IsLexeme kind word behind) :
    ∃ c tail, word = c :: tail ∧ isSpace c = false ∧ c ≠ '#' := by
  cases h with
  | word hword _ => exact exists_cons_of_isWord hword
  | stray hspace hcomment _ => exact ⟨_, [], rfl, hspace, hcomment⟩

theorem IsLexeme.endsGap (h : IsLexeme kind word rest) : EndsGap (word ++ rest) := by
  obtain ⟨c, tail, rfl, hc⟩ := h.exists_cons
  rintro _ ⟨⟩
  exact hc

/-- A text begins with one lexeme at most. -/
theorem IsLexeme.unique {kind' : TokenKind} {word' rest' : List Char} (h : IsLexeme kind word rest)
    (h' : IsLexeme kind' word' rest') (heq : word ++ rest = word' ++ rest') :
    kind = kind' ∧ word = word' := by
  cases h with
  | word hword hlongest =>
    obtain ⟨pattern, hrule, htake⟩ := ruleFor?_of_longest hword hlongest
    cases h' with
    | word hword' hlongest' =>
      obtain ⟨pattern', hrule', htake'⟩ := ruleFor?_of_longest hword' hlongest'
      rw [heq, hrule'] at hrule
      cases hrule
      exact ⟨rfl, by rw [← htake, heq, htake']⟩
    | stray hspace hcomment hnone =>
      rw [heq, List.singleton_append, ruleFor?_of_stray hspace hcomment hnone] at hrule
      cases hrule
  | stray hspace hcomment hnone =>
    cases h' with
    | word hword' hlongest' =>
      obtain ⟨pattern', hrule', -⟩ := ruleFor?_of_longest hword' hlongest'
      rw [← heq, List.singleton_append, ruleFor?_of_stray hspace hcomment hnone] at hrule'
      cases hrule'
    | stray =>
      obtain ⟨rfl, -⟩ := List.cons.inj heq
      exact ⟨rfl, rfl⟩

/-! ## Divisions -/

theorem Divides.written_eq (h : Divides text segments) : text = written segments := by
  induction h with
  | last => simp
  | segment htext _ _ _ ih => rw [written_cons, htext, ih]

/-- A text is divided in one way only. -/
theorem Divides.unique (h : Divides text segments) (h' : Divides text segments') :
    segments = segments' := by
  have hnil : EndsGap [] := nofun
  induction h generalizing segments' with
  | last hgap =>
    cases h' with
    | last => rfl
    | segment htext hgap' hword' _ =>
      have hsame := hgap.unique hgap' hnil hword'.endsGap ((List.append_nil _).trans htext)
      rw [← hsame] at htext
      obtain ⟨c, tail, hc, -⟩ := hword'.exists_cons
      exact absurd (List.append_eq_nil_iff.mp (List.self_eq_append_right.mp htext)).1 (by simp [hc])
  | @segment s text rest segments htext hgap hword h ih =>
    cases h' with
    | last hgap' =>
      have hsame := hgap'.unique hgap hnil hword.endsGap ((List.append_nil _).trans htext)
      rw [← hsame] at htext
      obtain ⟨c, tail, hc, -⟩ := hword.exists_cons
      exact absurd (List.append_eq_nil_iff.mp (List.self_eq_append_right.mp htext)).1 (by simp [hc])
    | @segment s' _ rest' _ htext' hgap' hword' h' =>
      obtain ⟨gap, kind, word⟩ := s
      obtain ⟨gap', kind', word'⟩ := s'
      have heq := htext.symm.trans htext'
      obtain rfl := hgap.unique hgap' hword.endsGap hword'.endsGap heq
      have heq := List.append_cancel_left heq
      obtain ⟨rfl, rfl⟩ := hword.unique hword' heq
      rw [ih (List.append_cancel_left heq ▸ h')]

/-- A gap in front of a text becomes part of its first gap. -/
theorem Divides.exists_append (h : Divides text segments) (hgap : IsGap gap text) :
    ∃ segments, Divides (gap ++ text) segments := by
  cases h with
  | last hlast =>
    rw [← List.append_nil text] at hgap
    exact ⟨_, .last (hgap.append hlast)⟩
  | @segment s _ rest segments htext hfirst hword h =>
    subst htext
    exact ⟨⟨gap ++ s.gap, s.kind, s.word⟩ :: segments,
      .segment (List.append_assoc ..).symm (hgap.append hfirst) hword h⟩

theorem isGap_of_ruleFor? {pattern : Pattern}
    (hrule : ruleFor? (c :: rest) = some ⟨pattern, .ignore⟩)
    (hgap : (c :: rest).take (pattern (c :: rest)) = gap) (hfill : gap ++ behind = c :: rest) :
    IsGap gap behind := by
  rcases head_of_ruleFor?_ignore hrule with ⟨-, rfl⟩ | ⟨rfl, rfl⟩
  · rw [Pattern.blanks, Pattern.take_many] at hgap
    subst hgap
    exact isGap_of_isSpace fun d hd =>
      isSpace_iff.mpr (.inl (List.all_eq_true.mp List.all_takeWhile d hd))
  · rw [Pattern.comment, Nat.add_comm, List.take_succ_cons, Pattern.take_many] at hgap
    subst hgap
    obtain rfl : behind = rest.dropWhile (· != '\n') := by
      have hsplit := @List.takeWhile_append_dropWhile _ (· != '\n') rest
      exact List.append_cancel_left ((List.cons.inj hfill).2.trans hsplit.symm)
    have hline : '\n' ∉ rest.takeWhile (· != '\n') :=
      Pattern.newline_not_mem_takeWhile (by decide) rest
    have hend : ∀ d ∈ ([] ++ rest.dropWhile (· != '\n')).head?, d = '\n' := by
      intro d hd
      have hnot := List.head?_dropWhile_not (· != '\n') rest
      rw [List.nil_append, Option.mem_def] at hd
      rw [hd] at hnot
      simpa using hnot
    have hcomment := IsGap.comment hline hend .nil
    rwa [List.append_nil] at hcomment

theorem isLexeme_of_ruleFor? {pattern : Pattern}
    (hrule : ruleFor? text = some ⟨pattern, .emit kind⟩)
    (hword : text.take (pattern text) = word) (hfill : word ++ behind = text) :
    IsLexeme kind word behind := by
  have htakes := takesLongest_of_ruleFor? hrule
  refine .word (hword ▸ htakes.isWord (pos_of_ruleFor? hrule)) ?_
  rintro more ⟨rest, rfl⟩ hmore
  have hle := htakes.length_le hmore rest
  have hlength := congrArg List.length hword
  have hsum := congrArg List.length hfill
  rw [List.append_assoc, hfill] at hle
  rw [List.length_take] at hlength
  simp only [List.length_append] at hle hsum
  exact List.length_eq_zero_iff.mp (by omega)

theorem isLexeme_of_ruleFor?_eq_none (hrule : ruleFor? (c :: rest) = none) :
    IsLexeme .error [c] rest := by
  refine .stray (Bool.eq_false_iff.mpr fun hspace => ?_) ?_ ?_
  · rcases isSpace_iff.mp hspace with hblank | rfl
    · rw [ruleFor?_blank hblank] at hrule
      cases hrule
    · rw [ruleFor?_newline] at hrule
      cases hrule
  · rintro rfl
    rw [ruleFor?_comment] at hrule
    cases hrule
  · rintro kind word hword ⟨more, hmore⟩
    obtain ⟨pattern, hsome⟩ := ruleFor?_of_isWord hword more
    rw [hmore, hrule] at hsome
    cases hsome

/-- A text begins with a gap or with a lexeme. -/
theorem firstPiece_cases (hfill : (firstPiece c rest).text ++ behind = c :: rest) :
    match firstPiece c rest with
    | .gap gap => IsGap gap behind
    | .lexeme kind word => IsLexeme kind word behind
    | .stray d => IsLexeme .error [d] behind := by
  unfold firstPiece at hfill ⊢
  cases hrule : ruleFor? (c :: rest) with
  | none =>
    rw [hrule] at hfill
    obtain rfl := (List.cons.inj hfill).2
    exact isLexeme_of_ruleFor?_eq_none hrule
  | some rule =>
    obtain ⟨pattern, action⟩ := rule
    rw [hrule] at hfill
    cases action with
    | newline => exact .space (by rw [eq_newline_of_ruleFor? hrule]; rfl) .nil
    | ignore => exact isGap_of_ruleFor? hrule rfl hfill
    | emit kind => exact isLexeme_of_ruleFor? hrule rfl hfill

/-- Every text can be divided. -/
theorem exists_divides (text : List Char) : ∃ segments, Divides text segments := by
  fun_induction cut text with
  | case1 => exact ⟨_, .last .nil⟩
  | case2 c rest ih =>
    obtain ⟨segments, h⟩ := ih
    have hfill := firstPiece_text_append c rest
    have hcases := firstPiece_cases hfill
    rw [← hfill]
    cases hfirst : firstPiece c rest with
    | gap gap =>
      rw [hfirst] at h hcases
      exact h.exists_append hcases
    | lexeme kind word =>
      rw [hfirst] at h hcases
      exact ⟨⟨[], kind, word⟩ :: segments, .segment rfl .nil hcases h⟩
    | stray d =>
      rw [hfirst] at h hcases
      exact ⟨⟨[], .error, [d]⟩ :: segments, .segment rfl .nil hcases h⟩

end Precedence

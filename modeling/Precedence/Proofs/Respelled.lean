import Precedence.Proofs.DividedFaults
import Precedence.Proofs.Insertion

/-!
# Texts with their operators spelled out

Three operators have a sign of their own beside the spelling on a keyboard: a cross multiplies like a
star, a division sign divides like a slash, and one character says of two sides what an exclamation
mark and an equals sign say together. A text in which all of them are spelled out (`respelled`) has
the lexemes of the text itself, respelled, and the same gaps but for what comments say
(`Divides.respelled`). No lexeme runs into one that was spelled out, since what a spelling begins
with is nowhere in a word but at its beginning (`not_mem_of_isWord_cons`).

So scanning finds the same tokens and faults one by one, each behind the same part of the text
(`forall₂_tokensOf_scan_respelled`, `forall₂_faultsOf_scan_respelled`).
-/

namespace Precedence

/-! ## Texts -/

/-- The operator signs that can be spelled out. -/
def specialSigns : List Char := ['×', '÷', '≠']

/-- How a character is spelled out. -/
def spellOut (c : Char) : List Char :=
  if c = '×' then ['*'] else if c = '÷' then ['/'] else if c = '≠' then ['!', '='] else [c]

/-- The text with every operator sign spelled out. -/
def respell (text : List Char) : List Char := text.flatMap spellOut

def respelled (source : String) : String := .ofList (respell source.toList)

variable {c : Char} {gap word rest behind body more text : List Char} {kind : TokenKind}
  {segments : List Segment}

theorem mem_specialSigns : c ∈ specialSigns ↔ c = '×' ∨ c = '÷' ∨ c = '≠' := by
  simp [specialSigns]

theorem spellOut_of_not_mem (h : c ∉ specialSigns) : spellOut c = [c] := by
  obtain ⟨hcross, hdivision, hunequal⟩ : c ≠ '×' ∧ c ≠ '÷' ∧ c ≠ '≠' := by
    simpa [mem_specialSigns] using h
  rw [spellOut, if_neg hcross, if_neg hdivision, if_neg hunequal]

theorem spellOut_ne_nil (c : Char) : spellOut c ≠ [] := by
  unfold spellOut
  repeat' split
  all_goals exact List.cons_ne_nil _ _

@[simp] theorem respell_nil : respell [] = [] := rfl

theorem respell_cons (c : Char) (text : List Char) :
    respell (c :: text) = spellOut c ++ respell text := rfl

theorem respell_cons_of_not_mem (h : c ∉ specialSigns) :
    respell (c :: text) = c :: respell text := by
  rw [respell_cons, spellOut_of_not_mem h, List.singleton_append]

theorem respell_append (s t : List Char) : respell (s ++ t) = respell s ++ respell t :=
  List.flatMap_append

theorem respell_eq_self (h : ∀ c ∈ text, c ∉ specialSigns) : respell text = text := by
  induction text with
  | nil => rfl
  | cons c text ih =>
    obtain ⟨hc, htext⟩ := List.forall_mem_cons.mp h
    rw [respell_cons_of_not_mem hc, ih htext]

theorem respell_eq_nil_iff : respell text = [] ↔ text = [] := by
  cases text with
  | nil => simp
  | cons c text => simp [respell_cons, spellOut_ne_nil]

/-- White space and line feeds are what they were. -/
theorem not_mem_specialSigns_of_isSpace (h : isSpace c = true) : c ∉ specialSigns := by
  intro hmem
  rcases mem_specialSigns.mp hmem with rfl | rfl | rfl <;> exact absurd h (by decide)

theorem newline_not_mem_respell (h : '\n' ∉ text) : '\n' ∉ respell text := by
  intro hmem
  obtain ⟨c, hc, hnl⟩ := List.mem_flatMap.mp hmem
  by_cases hsign : c ∈ specialSigns
  · simp only [specialSigns, List.mem_cons, List.not_mem_nil, or_false] at hsign
    rcases hsign with rfl | rfl | rfl <;> exact absurd hnl (by decide)
  · rw [spellOut_of_not_mem hsign, List.mem_singleton] at hnl
    exact h (hnl ▸ hc)

theorem all_isSpace_respell (text : List Char) :
    (respell text).all isSpace = text.all isSpace := by
  induction text with
  | nil => rfl
  | cons c text ih =>
    rw [respell_cons, List.all_append, ih, List.all_cons]
    congr 1
    by_cases hsign : c ∈ specialSigns
    · simp only [specialSigns, List.mem_cons, List.not_mem_nil, or_false] at hsign
      rcases hsign with rfl | rfl | rfl <;> rfl
    · simp [spellOut_of_not_mem hsign]

/-! ## Words -/

theorem solitary_of_mem_specialSigns (h : c ∈ specialSigns) : Solitary c := by
  rcases mem_specialSigns.mp h with rfl | rfl | rfl <;>
    exact solitary_of_not (by decide +kernel) (by decide)

/-- A word has no special sign in it or is one, of an operator. -/
theorem isWord_cases (h : kind.IsWord word) : (∀ c ∈ word, c ∉ specialSigns) ∨
    (kind = .star ∧ word = ['×']) ∨ (kind = .slash ∧ word = ['÷']) ∨
      (kind = .notEquals ∧ word = ['≠']) := by
  by_cases hsign : ∀ c ∈ word, c ∉ specialSigns
  · exact .inl hsign
  push Not at hsign
  obtain ⟨c, hc, hsign⟩ := hsign
  obtain rfl := solitary_of_mem_specialSigns hsign kind word h hc
  rcases mem_specialSigns.mp hsign with rfl | rfl | rfl
  · exact .inr (.inl ⟨kind_unique_of_isWord h (k := .star) (.inr rfl), rfl⟩)
  · exact .inr (.inr (.inl ⟨kind_unique_of_isWord h (k := .slash) (.inr rfl), rfl⟩))
  · exact .inr (.inr (.inr ⟨kind_unique_of_isWord h (k := .notEquals) (.inr rfl), rfl⟩))

theorem isWord_respell (h : kind.IsWord word) : kind.IsWord (respell word) := by
  rcases isWord_cases h with hplain | ⟨rfl, rfl⟩ | ⟨rfl, rfl⟩ | ⟨rfl, rfl⟩
  · rwa [respell_eq_self hplain]
  · exact .inl rfl
  · exact .inl rfl
  · exact .inl rfl

/-- What a sign spelled out begins with is in a word only at its beginning. -/
theorem not_mem_of_isWord_cons (h : kind.IsWord (c :: word)) :
    ∀ d ∈ word, d ∉ ['*', '/', '!'] := by
  intro d hd hmem
  have hnone : ∀ {d}, Solitary d → d ∉ word := fun hsolitary hd => by
    have hsingle := hsolitary _ _ h (List.mem_cons_of_mem c hd)
    rw [(List.cons.inj hsingle).2] at hd
    cases hd
  simp only [List.mem_cons, List.not_mem_nil, or_false] at hmem
  rcases hmem with rfl | rfl | rfl
  · exact hnone (solitary_of_not (by decide) (by decide)) hd
  · exact hnone (solitary_of_not (by decide) (by decide)) hd
  · cases kind with
    | number =>
      have hdigits : ∀ {digits}, IsDigits digits → '!' ∉ digits := fun h hmem =>
        absurd (h.2 '!' hmem) (by decide)
      have hmem : '!' ∈ c :: word := List.mem_cons_of_mem c hd
      generalize c :: word = numeral at h hmem
      cases h with
      | whole h => exact hdigits h hmem
      | point h hplaces => simp [hdigits h, hdigits hplaces] at hmem
    | identifier =>
      have hname := List.all_eq_true.mp (Bool.and_eq_true_iff.mp h).2 '!' hd
      exact absurd hname (by decide)
    | star | slash | notEquals => rcases h with h | h <;> cases h <;> simp at hd
    | _ => simp_all [TokenKind.IsWord]

/-- What is in front of the text respelled, and spells nothing out, is in front of the text. -/
theorem prefix_of_prefix_respell (hmore : ∀ d ∈ more, d ∉ ['*', '/', '!'])
    (h : more <+: respell text) : more <+: text := by
  induction more generalizing text with
  | nil => exact List.nil_prefix
  | cons d more ih =>
    obtain ⟨hd, hmore⟩ := List.forall_mem_cons.mp hmore
    cases text with
    | nil => cases List.prefix_nil.mp h
    | cons c rest =>
      by_cases hsign : c ∈ specialSigns
      · simp only [specialSigns, List.mem_cons, List.not_mem_nil, or_false] at hsign
        rcases hsign with rfl | rfl | rfl <;>
          exact absurd (List.cons_prefix_cons.mp h).1 (by rintro rfl; simp at hd)
      · rw [respell_cons_of_not_mem hsign] at h
        obtain ⟨rfl, htail⟩ := List.cons_prefix_cons.mp h
        exact List.cons_prefix_cons.mpr ⟨rfl, ih hmore htail⟩

/-- A word goes on respelled only as it goes on itself. -/
theorem isWord_append_of_respell (h : kind.IsWord word) (hmore : kind.IsWord (respell word ++ more)) :
    kind.IsWord (word ++ more) := by
  rcases isWord_cases h with hplain | ⟨rfl, rfl⟩ | ⟨rfl, rfl⟩ | ⟨rfl, rfl⟩
  · rwa [respell_eq_self hplain] at hmore
  all_goals
    obtain rfl : more = [] := by simpa [respell, spellOut, TokenKind.IsWord] using hmore
    exact h

/-! ## Divisions -/

/-- The segment with every operator sign spelled out. -/
def Segment.respelled (s : Segment) : Segment := ⟨respell s.gap, s.kind, respell s.word⟩

/-- A character that is not known is what it was. -/
theorem respell_stray (hnone : NoWord (c :: rest)) : c ∉ specialSigns := by
  have hfirst : ∀ {kind : TokenKind}, ¬ kind.IsWord [c] := fun hword =>
    hnone _ _ hword (List.cons_prefix_cons.mpr ⟨rfl, List.nil_prefix⟩)
  intro hsign
  rcases mem_specialSigns.mp hsign with rfl | rfl | rfl
  · exact @hfirst .star (.inr rfl)
  · exact @hfirst .slash (.inr rfl)
  · exact @hfirst .notEquals (.inr rfl)

/-- Only operators have another spelling. -/
theorem IsLexeme.respell_eq (h : IsLexeme kind word rest) (hkind : Operator.ofKind? kind = none) :
    respell word = word := by
  cases h with
  | word hword _ =>
    rcases isWord_cases hword with hplain | ⟨rfl, -⟩ | ⟨rfl, -⟩ | ⟨rfl, -⟩
    · exact respell_eq_self hplain
    all_goals cases hkind
  | stray _ _ hnone => rw [respell_cons_of_not_mem (respell_stray hnone), respell_nil]

theorem IsLexeme.respelled (h : IsLexeme kind word rest) :
    IsLexeme kind (respell word) (respell rest) := by
  cases h with
  | word hword hlongest =>
    refine .word (isWord_respell hword) fun more hfront hlonger => ?_
    have hmore : ∀ d ∈ more, d ∉ ['*', '/', '!'] := by
      obtain ⟨c, tail, hcons, -⟩ := exists_cons_of_isWord (isWord_respell hword)
      rw [hcons] at hlonger
      exact fun d hd => not_mem_of_isWord_cons hlonger d (List.mem_append_right _ hd)
    exact hlongest more (prefix_of_prefix_respell hmore hfront)
      (isWord_append_of_respell hword hlonger)
  | @stray c _ hspace hcomment hnone =>
    have hplain := respell_stray hnone
    rw [respell_cons_of_not_mem hplain, respell_nil]
    refine .stray hspace hcomment fun kind word hword hfront => hnone kind word hword ?_
    obtain ⟨d, tail, rfl, -⟩ := exists_cons_of_isWord hword
    obtain ⟨rfl, htail⟩ := List.cons_prefix_cons.mp hfront
    exact List.cons_prefix_cons.mpr
      ⟨rfl, prefix_of_prefix_respell (not_mem_of_isWord_cons hword) htail⟩

theorem IsGap.respelled (h : IsGap gap behind) : IsGap (respell gap) (respell behind) := by
  induction h with
  | nil => exact .nil
  | space hc _ ih =>
    rw [respell_cons_of_not_mem (not_mem_specialSigns_of_isSpace hc)]
    exact .space hc ih
  | @comment body gap behind hbody hend _ ih =>
    rw [respell_cons_of_not_mem (by decide), respell_append]
    refine .comment (newline_not_mem_respell hbody) ?_ ih
    rw [← respell_append]
    cases htail : gap ++ behind with
    | nil => exact nofun
    | cons c tail =>
      obtain rfl := hend c (by rw [htail]; rfl)
      rintro _ ⟨⟩
      rfl

/-- A text respelled is divided as the text is. -/
theorem Divides.respelled (h : Divides text segments) :
    Divides (respell text) (segments.map Segment.respelled) := by
  induction h with
  | last hgap => exact .last hgap.respelled
  | @segment s text rest segments htext hgap hword _ ih =>
    have hgap := hgap.respelled
    rw [respell_append] at hgap
    refine .segment (s := s.respelled) ?_ hgap hword.respelled ih
    rw [htext, respell_append, respell_append]
    rfl

theorem length_spellOut (c : Char) : (spellOut c).length = 1 + [c].count '≠' := by
  by_cases hsign : c ∈ specialSigns
  · simp only [specialSigns, List.mem_cons, List.not_mem_nil, or_false] at hsign
    rcases hsign with rfl | rfl | rfl <;> rfl
  · have hne : '≠' ∉ [c] := fun hmem => hsign (by rw [← List.mem_singleton.mp hmem]; decide)
    rw [spellOut_of_not_mem hsign, List.count_eq_zero.mpr hne]
    rfl

theorem length_le_length_respell (text : List Char) : text.length ≤ (respell text).length := by
  induction text with
  | nil => exact Nat.le_refl _
  | cons c text ih =>
    rw [respell_cons, List.length_append, length_spellOut, List.length_cons]
    omega

/-! ## Places -/

/-- Behind some of the text, and behind the same of the text respelled. -/
def SamePart (text : List Char) (p p' : Position) : Prop :=
  ∃ read, read <+: text ∧ p = Position.origin.afterAll read ∧
    p' = Position.origin.afterAll (respell read)

/-! ## Tokens and faults -/

/-- The token of a text and that of the text respelled, which are spelled in the same way unless they
are operators. -/
structure Token.Respelled (source : List Char) (t t' : Token) : Prop where
  kind : t'.kind = t.kind
  text : t'.text = respelled t.text
  plain : Operator.ofKind? t.kind = none → t'.text = t.text
  start : SamePart source t.start t'.start

/-- The fault of a text and that of the text respelled, which quotes the same. -/
structure Fault.Respelled (source : List Char) (fault fault' : Fault) : Prop where
  cause : fault'.cause = fault.cause
  position : SamePart source fault.position fault'.position

theorem Segment.isJoined_respelled (before : TokenKind) (s : Segment) :
    s.respelled.isJoined before = s.isJoined before := by
  rw [isJoined, isJoined, Segment.respelled, all_isSpace_respell]

theorem Segment.text_respelled (s : Segment) : s.respelled.text = respell s.text :=
  (respell_append s.gap s.word).symm

section Places

variable {s : Segment} {read : List Char}

theorem afterAll_respell_append (read more : List Char) :
    (Position.origin.afterAll (respell read)).afterAll (respell more) =
      Position.origin.afterAll (respell (read ++ more)) := by
  rw [respell_append, Position.afterAll_append]

/-- The lexeme of a segment begins behind its gap. -/
theorem samePart_gap (h : read ++ s.text ++ rest <+: text) :
    SamePart text ((Position.origin.afterAll read).afterAll s.gap)
      ((Position.origin.afterAll (respell read)).afterAll s.respelled.gap) := by
  refine ⟨read ++ s.gap, List.IsPrefix.trans ?_ h, (Position.afterAll_append ..).symm,
    afterAll_respell_append ..⟩
  simp [Segment.text]

/-- A token that is its segment's lexeme. -/
theorem token_respelled (hword : s.word = [] ∨ IsLexeme s.kind s.word rest)
    (h : read ++ s.text ++ rest <+: text) :
    Token.Respelled text (s.token (Position.origin.afterAll read))
      (s.respelled.token (Position.origin.afterAll (respell read))) where
  kind := rfl
  text := by simp [Segment.token, Segment.respelled, Precedence.respelled]
  plain hkind := by
    have hsame : respell s.word = s.word := by
      rcases hword with hnil | hword
      · rw [hnil, respell_nil]
      · exact hword.respell_eq hkind
    exact congrArg String.ofList hsame
  start := samePart_gap h

theorem sign_respelled (before : TokenKind) (h : read ++ s.text ++ rest <+: text) :
    List.Forall₂ (Token.Respelled text) (s.sign before (Position.origin.afterAll read))
      (s.respelled.sign before (Position.origin.afterAll (respell read))) := by
  rw [Segment.sign, Segment.sign, s.isJoined_respelled]
  split
  · have hstar : "*" = respelled "*" := by decide
    exact .cons ⟨rfl, hstar, fun _ => rfl, samePart_gap h⟩ .nil
  · exact .nil

/-- A stray character is reported as it was. -/
theorem faults_respelled (hword : IsLexeme s.kind s.word rest)
    (h : read ++ s.text ++ rest <+: text) {before before' : Option Piece}
    (hbefore : ∀ c, Piece.strayCause before' c = Piece.strayCause before c) :
    List.Forall₂ (Fault.Respelled text) (s.faults before (Position.origin.afterAll read))
      (s.respelled.faults before' (Position.origin.afterAll (respell read))) := by
  have hplace := samePart_gap h
  obtain ⟨gap, kind, word⟩ := s
  by_cases hkind : kind = .error
  · subst hkind
    cases hword with
    | word hword => cases hword
    | @stray c _ _ _ hnone =>
      have hsame : respell [c] = [c] := by
        rw [respell_cons_of_not_mem (respell_stray hnone), respell_nil]
      simp only [Segment.faults, Segment.respelled, hsame, respell_eq_nil_iff, if_true,
        List.map_cons, List.map_nil]
      refine .cons ⟨?_, hplace⟩ .nil
      split
      · exact hbefore c
      · rfl
  · have hnone : ∀ gap word before p, (Segment.mk gap kind word).faults before p = [] :=
      fun _ _ _ _ => if_neg hkind
    rw [Segment.respelled, hnone, hnone]
    exact .nil

end Places

/-- The tokens of a text respelled are those of the text, one by one. -/
theorem forall₂_dividedTokens_respelled (h : Divides rest segments) (before : TokenKind)
    {read : List Char} (htext : read ++ rest <+: text) :
    List.Forall₂ (Token.Respelled text)
      (dividedTokens before (Position.origin.afterAll read) segments)
      (dividedTokens before (Position.origin.afterAll (respell read))
        (segments.map Segment.respelled)) := by
  induction h generalizing before read with
  | @last gap hgap =>
    have hlast : read ++ Segment.text ⟨gap, .eof, []⟩ ++ [] <+: text := by
      simpa [Segment.text] using htext
    exact List.rel_append (sign_respelled before hlast)
      (.cons (token_respelled (.inl rfl) hlast) .nil)
  | @segment s rest₀ rest segments hrest _ hword _ ih =>
    rw [hrest, ← List.append_assoc s.gap, ← Segment.text, ← List.append_assoc] at htext
    have hbehind := ih s.kind htext
    rw [Position.afterAll_append, ← afterAll_respell_append, ← s.text_respelled] at hbehind
    exact List.rel_append (sign_respelled before htext)
      (.cons (token_respelled (.inr hword) htext) hbehind)

/-- A number has its say in what is wrong with a point behind it, and no number is respelled. -/
theorem strayCause_respelled {s : Segment} (h : IsLexeme s.kind s.word rest) (c : Char) :
    Piece.strayCause (some s.respelled.piece) c = Piece.strayCause (some s.piece) c := by
  obtain ⟨gap, kind, word⟩ := s
  by_cases hnumber : kind = .number
  · subst hnumber
    rw [Segment.respelled, h.respell_eq rfl]
    rfl
  · have hother : ∀ word, Piece.strayCause (some (.lexeme kind word)) c =
        .unrecognisedToken (String.singleton c) := fun word => by
      unfold Piece.strayCause
      split
      · rename_i heq
        cases heq
        exact absurd rfl hnumber
      · rfl
    exact (hother _).trans (hother _).symm

/-- The faults of a text respelled are those of the text, one by one. -/
theorem forall₂_dividedFaults_respelled (h : Divides rest segments) {read : List Char}
    (htext : read ++ rest <+: text) {before before' : Option Piece}
    (hbefore : ∀ c, Piece.strayCause before' c = Piece.strayCause before c) :
    List.Forall₂ (Fault.Respelled text)
      (dividedFaults before (Position.origin.afterAll read) segments)
      (dividedFaults before' (Position.origin.afterAll (respell read))
        (segments.map Segment.respelled)) := by
  induction h generalizing read before before' with
  | last => exact .nil
  | @segment s rest₀ rest segments hrest _ hword _ ih =>
    rw [hrest, ← List.append_assoc s.gap, ← Segment.text, ← List.append_assoc] at htext
    have hbehind := ih htext (strayCause_respelled hword)
    rw [Position.afterAll_append, ← afterAll_respell_append, ← s.text_respelled] at hbehind
    exact List.rel_append (faults_respelled hword htext hbefore) hbehind

section Sources

variable {source : String}

theorem toList_respelled (source : String) :
    (respelled source).toList = respell source.toList := String.toList_ofList

theorem forall₂_tokensOf_scan_respelled (source : String) :
    List.Forall₂ (Token.Respelled source.toList) (tokensOf (scan source))
      (tokensOf (scan (respelled source))) := by
  obtain ⟨segments, h⟩ := exists_divides source.toList
  have h' := h.respelled
  rw [← toList_respelled] at h'
  rw [tokensOf_scan_of_divides h, tokensOf_scan_of_divides h']
  exact @forall₂_dividedTokens_respelled _ _ _ h .eof [] (List.prefix_refl _)

theorem forall₂_faultsOf_scan_respelled (hlength : (respelled source).length ≤ 2 ^ 32 - 2) :
    List.Forall₂ (Fault.Respelled source.toList) (faultsOf (scan source))
      (faultsOf (scan (respelled source))) := by
  obtain ⟨segments, h⟩ := exists_divides source.toList
  have h' := h.respelled
  rw [← toList_respelled] at h'
  rw [← String.length_toList, toList_respelled] at hlength
  have hle := length_le_length_respell source.toList
  rw [faultsOf_scan_of_divides (by omega) h,
    faultsOf_scan_of_divides (by rw [toList_respelled]; omega) h']
  exact @forall₂_dividedFaults_respelled _ _ _ h [] (List.prefix_refl _) none none fun _ => rfl

end Sources

end Precedence

import Precedence.Proofs.Layout
import Precedence.Proofs.Limit

/-!
# Diagnostics quote the text

A fault points at an offset of the text, and what it quotes is to be seen there
(`parseWithin_error_seenAt`): the lexeme or the stray character that begins at the offset, the
number that ends right before it, or nothing if the offset is the end of the text. No fault quotes
a multiplication sign nobody wrote.

The faults of scanning come from stray characters. Those of the parser name the token they point at
(`Fault.Cause.Names`); such a token is never an unwritten sign, since the tokens before it would end
with an operand, which goes on with the sign. Only nesting can be blamed at one, and then its place
is that of the lexeme behind it.
-/

namespace Precedence

variable {source : String} {i : Nat} {fault : Fault} {maxDepth : Nat}

/-- A number ends right before the offset. -/
structure NumberBefore (source : String) (i : Nat) (number : String) : Prop where
  numeral : IsNumeral number.toList
  written : number.toList <:+ source.toList.take i
  token : ∃ t ∈ tokensOf (scan source), t.kind = .number ∧ t.text = number ∧
    t.span.stop = placeOf source.toList i

/-- What the cause quotes is to be seen in the text at the offset. -/
def Fault.Cause.SeenAt (source : String) (i : Nat) : Fault.Cause → Prop
  | .unrecognisedToken text | .numberParseError text | .noPrefixRule text | .noInfixRule text
  | .unusedTokens text => LexemeAt source i text
  | .malformedNumber text =>
      ∃ number, text = number ++ "." ∧ NumberBefore source i number ∧ LexemeAt source i "."
  | .missingClosingParen found | .malformedArguments found =>
      LexemeAt source i found ∨ found = "end of input" ∧ i = source.toList.length
  | .incompleteExpression => i = source.toList.length
  | .notCallable _ => LexemeAt source i "("
  | .nestingTooDeep _ => (∃ word, LexemeAt source i word) ∨ i = source.toList.length

/-- The fault points at the offset and at no other, and what it quotes is to be seen there. -/
structure Fault.SeenAt (source : String) (fault : Fault) (i : Nat) : Prop where
  le : i ≤ source.toList.length
  position : fault.position = placeOf source.toList i
  only : ∀ j ≤ source.toList.length, fault.position = placeOf source.toList j → j = i
  cause : fault.cause.SeenAt source i

theorem Fault.seenAt_of_cause (hlength : source.toList.length < 2 ^ 32)
    (hle : i ≤ source.toList.length) (hposition : fault.position = placeOf source.toList i)
    (hcause : fault.cause.SeenAt source i) : fault.SeenAt source i where
  le := hle
  position := hposition
  only _ hj h := placeOf_inj hlength hj hle (h.symm.trans hposition)
  cause := hcause

/-! ## Faults of scanning -/

theorem numberBefore_of_cut {before behind : List Piece} {word : List Char}
    (hcut : cut source.toList = before ++ .lexeme .number word :: behind) :
    NumberBefore source (textOf before ++ word).length (.ofList word) := by
  have hsource : source.toList = textOf before ++ word ++ textOf behind := by
    rw [← textOf_cut source.toList, hcut, textOf_append, textOf_cons, List.append_assoc]
    rfl
  let start := Position.origin.afterAll (textOf before)
  refine ⟨?_, ?_, ⟨.number, .ofList word, ⟨start, start.afterAll word⟩⟩, ?_, rfl, rfl, ?_⟩
  · rw [String.toList_ofList]
    exact isNumeral_of_lexeme (mem_cut hcut)
  · rw [String.toList_ofList, hsource, List.take_left]
    exact List.suffix_append _ _
  · rw [tokensOf_scan, hcut]
    exact mem_tokensFrom.mpr (.inr ⟨before, _, behind, rfl, .head _⟩)
  · rw [hsource, placeOf_append, Position.afterAll_append]

theorem exists_seenAt_of_scan (hlength : source.toList.length < 2 ^ 32)
    (h : fault ∈ faultsOf (scan source)) : ∃ i, fault.SeenAt source i := by
  rw [faultsOf_scan hlength] at h
  obtain ⟨before, c, behind, hcut, rfl⟩ := mem_faultsFrom h
  obtain ⟨hat, hplace⟩ := lexemeAt_of_mem_tokens hcut (.head _) nofun nofun
    String.singleton_eq_ofList rfl
  refine ⟨_, Fault.seenAt_of_cause hlength hat.lt.le hplace ?_⟩
  rw [Option.or_none]
  unfold Piece.strayCause
  split
  · rename_i word hlast
    split
    · rename_i hpoint
      subst hpoint
      obtain ⟨rest, rfl⟩ := List.getLast?_eq_some_iff.mp hlast
      have hnumber := numberBefore_of_cut (hcut.trans (List.append_assoc ..))
      refine ⟨_, rfl, ?_, hat⟩
      simpa [Piece.text] using hnumber
    · exact hat
  · exact hat

/-! ## Faults of the parser -/

/-- The tokens of a text are the whole stream that the parser reads. -/
theorem tokens_ofList_scan (source : String) :
    (Stream.ofList (tokensOf (scan source))).tokens = tokensOf (scan source) := by
  obtain ⟨row, hrow⟩ := exists_tokensFrom_eq .origin (cut source.toList)
  rw [tokensOf_scan, hrow, Stream.ofList_concat rfl]
  rfl

/-- In the tokens of a text, an unwritten multiplication sign has an operand right before it. -/
theorem endsOperand_of_implicitStar {ts : List Token} {u : Token}
    (hrow : ts ++ [u] <+: tokensOf (scan source)) (hu : u.kind = .implicitStar) :
    ∃ t ∈ ts.getLast?, t.EndsOperand := by
  rw [tokensOf_scan] at hrow
  have hkind : ∀ kind word, .lexeme kind word ∈ cut source.toList → kind ≠ .implicitStar :=
    fun _ _ h => (kind_of_lexeme h).2.1
  obtain ⟨hchain, hhead⟩ := @isChain_tokensFrom .origin _ hkind
  have hprefix := hchain.prefix hrow
  rcases List.eq_nil_or_concat ts with rfl | ⟨row, t, rfl⟩
  · obtain ⟨rest, hrest⟩ := hrow
    exact absurd hu (hhead u (by rw [← hrest]; rfl))
  · rw [List.concat_eq_append] at hprefix ⊢
    refine ⟨t, by simp, ?_⟩
    rw [List.append_assoc] at hprefix
    exact (List.isChain_append_cons_cons.mp hprefix).2.1 hu

/-- A fault that names a written token, or the end of the text, is seen where the token stands. -/
theorem exists_seenAt_of_names {u : Token} (hlength : source.toList.length < 2 ^ 32)
    (hu : u ∈ tokensOf (scan source)) (hstar : u.kind ≠ .implicitStar)
    (hposition : fault.position = u.start) (hnames : fault.cause.Names u) :
    ∃ i, fault.SeenAt source i := by
  rcases token_cases hu with rfl | ⟨heof, -, i, hat, hplace⟩ | ⟨hk, -⟩
  · refine ⟨_, Fault.seenAt_of_cause hlength le_rfl hposition ?_⟩
    obtain ⟨cause, position⟩ := fault
    cases cause <;> simp_all [Fault.Cause.Names, Fault.Cause.SeenAt, Token.eof, Token.describe]
  · refine ⟨i, Fault.seenAt_of_cause hlength hat.lt.le (hposition.trans hplace) ?_⟩
    have hdescribe : u.describe = u.text := by
      unfold Token.describe
      split
      · exact absurd ‹_› heof
      · rfl
    obtain ⟨cause, position⟩ := fault
    cases cause with
    | unrecognisedToken | malformedNumber | noInfixRule | nestingTooDeep => exact hnames.elim
    | noPrefixRule | unusedTokens | numberParseError =>
      obtain ⟨rfl, -⟩ := hnames
      exact hat
    | incompleteExpression => exact absurd hnames heof
    | missingClosingParen | malformedArguments =>
      obtain rfl : _ = u.describe := hnames
      exact .inl (hdescribe ▸ hat)
    | notCallable =>
      rw [text_of_openParen hu hnames] at hat
      exact hat
  · exact absurd hk hstar

/-- The place where nesting is blamed is that of a lexeme, or the end of the text. -/
theorem exists_seenAt_of_deep {u : Token} {limit : Nat} (hlength : source.toList.length < 2 ^ 32)
    (hu : u ∈ tokensOf (scan source)) :
    ∃ i, Fault.SeenAt source ⟨.nestingTooDeep limit, u.start⟩ i := by
  rcases token_cases hu with rfl | ⟨-, -, i, hat, hplace⟩ | ⟨-, i, word, hat, hplace⟩
  · exact ⟨_, Fault.seenAt_of_cause hlength le_rfl rfl (.inr rfl)⟩
  · exact ⟨i, Fault.seenAt_of_cause hlength hat.lt.le hplace (.inl ⟨_, hat⟩)⟩
  · exact ⟨i, Fault.seenAt_of_cause hlength hat.lt.le hplace (.inl ⟨_, hat⟩)⟩

theorem exists_seenAt_of_parseTokens (hlength : source.toList.length < 2 ^ 32)
    (h : parseTokens .arithmetic maxDepth (tokensOf (scan source)) = .error fault) :
    ∃ i, fault.SeenAt source i := by
  have hmem := Stream.token_mem_tokens (Stream.ofList (tokensOf (scan source)))
  rw [tokens_ofList_scan] at hmem
  by_cases hdeep : ∃ limit, fault.cause = .nestingTooDeep limit
  · obtain ⟨limit, hcause⟩ := hdeep
    obtain ⟨cause, position⟩ := fault
    obtain rfl : cause = .nestingTooDeep limit := hcause
    obtain ⟨-, t, -, rfl⟩ := refusedAt_of_parseTokens h
    exact exists_seenAt_of_deep hlength (hmem _)
  by_cases herror : ∀ t ∈ tokensOf (scan source), t.kind ≠ .error
  · obtain ⟨ts, u, hrow, hblocked⟩ := exists_blocked_of_parseTokens herror
      (fun limit hc => hdeep ⟨limit, hc⟩) h
    rw [tokens_ofList_scan] at hrow
    have hstar : u.kind ≠ .implicitStar := fun hk =>
      hblocked.kind_ne_implicitStar (endsOperand_of_implicitStar hrow hk) hk
    exact exists_seenAt_of_names hlength (hrow.subset (by simp)) hstar hblocked.position_eq
      hblocked.names
  · obtain ⟨t, ht, hk, hall⟩ := exists_parseTokens_eq_of_error (g := .arithmetic) herror
    rw [hall] at h
    cases h
    rcases token_cases ht with rfl | ⟨-, -, i, hat, hplace⟩ | ⟨hstar, -⟩
    · cases hk
    · exact ⟨i, Fault.seenAt_of_cause hlength hat.lt.le hplace hat⟩
    · rw [hk] at hstar
      cases hstar

/-- What a parse complains about is in the text, at the place it points at. -/
theorem parseWithin_error_seenAt (hlength : source.length ≤ 2 ^ 32 - 2)
    (h : parseWithin maxDepth source = .error fault) : ∃ i, fault.SeenAt source i := by
  have hlength : source.toList.length < 2 ^ 32 := by
    rw [String.length_toList]
    omega
  unfold parseWithin tokenize at h
  cases hfault : (faultsOf (scan source)).head? with
  | some first =>
    rw [hfault] at h
    cases h
    exact exists_seenAt_of_scan hlength (List.mem_of_head? hfault)
  | none =>
    rw [hfault] at h
    exact exists_seenAt_of_parseTokens hlength h

set_option maxRecDepth 1000 in
/-- The second group, on the next line, is multiplied with the first and not closed before `c`. -/
theorem seenAt_openProduct :
    "(a)\n(b c".length ≤ 2 ^ 32 - 2 ∧
      parseWithin 8 "(a)\n(b c" = .error ⟨.missingClosingParen "c", ⟨2, 4⟩⟩ ∧
      ∃ i, Fault.SeenAt "(a)\n(b c" ⟨.missingClosingParen "c", ⟨2, 4⟩⟩ i := by
  have h : parseWithin 8 "(a)\n(b c" = .error ⟨.missingClosingParen "c", ⟨2, 4⟩⟩ := by cbv
  exact ⟨by decide, h, parseWithin_error_seenAt (by decide) h⟩

end Precedence

import Precedence.Proofs.Diagnostics
import Precedence.Proofs.ExactPlaces
import Precedence.Proofs.Noninterference
import Precedence.Proofs.Respelled

/-!
# The spelling of operators

How an operator is spelled decides nothing: a text and the text with every operator sign spelled out
are both accepted, with trees that differ in their places only, or both refused, with faults that
differ only where they quote an operator (`parseWithin_respelled`). Of the signs only inequality
takes more room spelled out than by itself, and it moves what is behind it on its line by one column
(`Shifted`).
-/

namespace Precedence

variable {more text : List Char} {p p' : Position} {source : String} {maxDepth : Nat}

/-! ## Places -/

/-- What has been read of the line that a text ends with, backwards. -/
def lineSoFar (text : List Char) : List Char := text.reverse.takeWhile (· ≠ '\n')

theorem count_newline_respell (text : List Char) :
    (respell text).count '\n' = text.count '\n' := by
  induction text with
  | nil => rfl
  | cons c text ih =>
    rw [respell_cons, List.count_append, ih, ← List.singleton_append, List.count_append]
    congr 1
    by_cases hsign : c ∈ specialSigns
    · simp only [specialSigns, List.mem_cons, List.not_mem_nil, or_false] at hsign
      rcases hsign with rfl | rfl | rfl <;> rfl
    · rw [spellOut_of_not_mem hsign]

theorem lineSoFar_append_of_not_mem (h : '\n' ∉ more) :
    lineSoFar (text ++ more) = more.reverse ++ lineSoFar text := by
  have hall : ∀ d ∈ more.reverse, decide (d ≠ '\n') = true := fun d hd =>
    decide_eq_true fun e => h (e ▸ List.mem_reverse.mp hd)
  rw [lineSoFar, List.reverse_append, List.takeWhile_append_of_pos hall, lineSoFar]

/-- A line respelled is longer by the number of its signs for inequality. -/
theorem length_lineSoFar_respell (text : List Char) :
    (lineSoFar (respell text)).length = (lineSoFar text).length + (lineSoFar text).count '≠' := by
  induction text using List.reverseRecOn with
  | nil => rfl
  | append_singleton text c ih =>
    rw [respell_append]
    by_cases hnl : c = '\n'
    · subst hnl
      simp [lineSoFar, respell, spellOut]
    · have hmem : '\n' ∉ [c] := fun h => hnl (List.mem_singleton.mp h).symm
      rw [lineSoFar_append_of_not_mem (newline_not_mem_respell hmem),
        lineSoFar_append_of_not_mem hmem, List.length_append, List.length_append, List.count_append,
        List.length_reverse, ih, respell_cons, respell_nil, List.append_nil, length_spellOut,
        List.reverse_singleton, List.length_singleton]
      omega

/-- The place in the text and the place in the text respelled are on the same line, and the second
is further to the right by the number of signs for inequality before it on the line. -/
def Shifted (source : String) (p p' : Position) : Prop :=
  ∃ read, read <+: source.toList ∧ p.Marks read ∧ p'.line = p.line ∧
    p'.column.toNat = p.column.toNat + (lineSoFar read).count '≠'

theorem respell_isPrefix (h : more <+: text) : respell more <+: respell text := by
  obtain ⟨rest, rfl⟩ := h
  rw [respell_append]
  exact List.prefix_append _ _

theorem SamePart.shifted {source : String} (hlength : (respelled source).length ≤ 2 ^ 32 - 2)
    (h : SamePart source.toList p p') : Shifted source p p' := by
  obtain ⟨read, hread, rfl, rfl⟩ := h
  rw [respelled, String.length_ofList] at hlength
  have hle := (respell_isPrefix hread).length_le
  have hle' := length_le_length_respell read
  have hmarks : (Position.origin.afterAll read).Marks read := marks_afterAll (by omega)
  have hmarks' : (Position.origin.afterAll (respell read)).Marks (respell read) :=
    marks_afterAll (by omega)
  refine ⟨read, hread, hmarks, ?_, ?_⟩
  · rw [← UInt32.toNat_inj, hmarks.line, hmarks'.line, count_newline_respell]
  · have hcolumn := hmarks.column
    have hcolumn' := hmarks'.column
    have hline := length_lineSoFar_respell read
    simp only [lineSoFar] at hline ⊢
    omega

/-! ## Parses -/

theorem Token.Respelled.alike {t t' : Token} (h : t.Respelled source.toList t') : t.Alike t' := by
  refine ⟨h.kind.symm, fun hkind => (h.plain ?_).symm⟩
  rcases hkind with hkind | hkind <;> rw [hkind] <;> rfl

/-- The two faults say the same, but for the spelling of an operator of the text that they quote. -/
def SameButSpelling (source : String) (fault fault' : Fault) : Prop :=
  fault'.cause = fault.cause ∨ ∃ complaint t t', Fault.Complaint complaint ∧
    t ∈ tokensOf (scan source) ∧ t' ∈ tokensOf (scan (respelled source)) ∧
    (Operator.ofKind? t.kind).isSome ∧ t'.kind = t.kind ∧ t'.text = respelled t.text ∧
    fault = ⟨complaint t, t.start⟩ ∧ fault' = ⟨complaint t', t'.start⟩

/-- A text and the text with every operator spelled out are parsed alike. -/
structure SpelledAlike (maxDepth : Nat) (source : String) : Prop where
  /-- Both are accepted or neither is. -/
  accepted : (parseWithin maxDepth source).isOk = (parseWithin maxDepth (respelled source)).isOk
  trees : ∀ e e', parseWithin maxDepth source = .ok e →
    parseWithin maxDepth (respelled source) = .ok e' →
    e.placeless = e'.placeless ∧ e.Alike (Shifted source) e'
  faults : ∀ fault fault', parseWithin maxDepth source = .error fault →
    parseWithin maxDepth (respelled source) = .error fault' →
    fault.cause.name = fault'.cause.name ∧ Shifted source fault.position fault'.position ∧
      SameButSpelling source fault fault'

/-- Two trees that differ in their places only, or faults that say the same, at the same part of the
text. -/
def SpelledResult (source : String) : Except Fault Expr → Except Fault Expr → Prop
  | .ok e, .ok e' => e.Alike (SamePart source.toList) e'
  | .error fault, .error fault' => fault.cause.name = fault'.cause.name ∧
      SamePart source.toList fault.position fault'.position ∧ SameButSpelling source fault fault'
  | _, _ => False

theorem spelledResult_parseTokens (source : String) (maxDepth : Nat) :
    SpelledResult source (parseTokens .arithmetic maxDepth (tokensOf (scan source)))
      (parseTokens .arithmetic maxDepth (tokensOf (scan (respelled source)))) := by
  have hforall := forall₂_tokensOf_scan_respelled source
  have hsame := @sameResult_parseTokens _ _ .arithmetic maxDepth (hforall.imp fun _ _ ht => ht.alike)
  have hmem := Stream.token_mem_tokens (Stream.ofList (tokensOf (scan source)))
  have hmem' := Stream.token_mem_tokens (Stream.ofList (tokensOf (scan (respelled source))))
  rw [← tokens_ofList_scan source, ← tokens_ofList_scan (respelled source)] at hforall
  obtain ⟨-, htoken⟩ := Stream.forall_token_of_tokens hforall
  rw [tokens_ofList_scan] at hmem hmem'
  revert hsame
  generalize parseTokens .arithmetic maxDepth (tokensOf (scan source)) = r
  generalize parseTokens .arithmetic maxDepth (tokensOf (scan (respelled source))) = r'
  intro hsame
  cases r <;> cases r' <;> first | exact hsame.elim | skip
  · obtain ⟨complaint, i, hc, rfl, rfl⟩ := hsame
    have hi := htoken i
    refine ⟨hc.name_eq _ _, hi.start, ?_⟩
    cases hoperator : Operator.ofKind? ((Stream.ofList (tokensOf (scan source))).token i).kind with
    | none => exact .inl (hc.eq_of_text hi.kind (hi.plain hoperator))
    | some operator =>
      exact .inr ⟨complaint, _, _, hc, hmem i, hmem' i, by rw [hoperator]; rfl, hi.kind, hi.text,
        rfl, rfl⟩
  · refine hsame.imp ?_
    rintro _ _ ⟨i, rfl, rfl⟩
    exact (htoken i).start

theorem spelledResult_parseWithin (hlength : (respelled source).length ≤ 2 ^ 32 - 2)
    (maxDepth : Nat) :
    SpelledResult source (parseWithin maxDepth source)
      (parseWithin maxDepth (respelled source)) := by
  have hfaults := forall₂_faultsOf_scan_respelled hlength
  unfold parseWithin tokenize
  revert hfaults
  generalize faultsOf (scan source) = faults
  generalize faultsOf (scan (respelled source)) = faults'
  rintro (_ | ⟨hfault, _⟩)
  · exact spelledResult_parseTokens source maxDepth
  · exact ⟨by rw [hfault.cause], hfault.position, .inl hfault.cause⟩

/-- In a text that is not too long with its operators spelled out, their spelling decides nothing. -/
theorem parseWithin_respelled (hlength : (respelled source).length ≤ 2 ^ 32 - 2) (maxDepth : Nat) :
    SpelledAlike maxDepth source := by
  have hresult := spelledResult_parseWithin hlength maxDepth
  refine ⟨?_, fun e e' he he' => ?_, fun fault fault' hfault hfault' => ?_⟩
  · cases hp : parseWithin maxDepth source <;> cases hp' : parseWithin maxDepth (respelled source) <;>
      rw [hp, hp'] at hresult <;> first | rfl | exact hresult.elim
  · rw [he, he'] at hresult
    exact ⟨hresult.placeless_eq, hresult.imp fun _ _ => SamePart.shifted hlength⟩
  · rw [hfault, hfault'] at hresult
    exact ⟨hresult.1, hresult.2.1.shifted hlength, hresult.2.2⟩

set_option maxRecDepth 2000 in
/-- A cross where a factor should begin, behind a comment and an inequality. -/
theorem parseWithin_respelled_openProduct :
    (respelled "# ≠
(a ≠ ×").length ≤ 2 ^ 32 - 2 ∧ SpelledAlike 9 "# ≠
(a ≠ ×" ∧
      parseWithin 9 "# ≠
(a ≠ ×" = .error ⟨.noPrefixRule "×", ⟨2, 6⟩⟩ ∧
      parseWithin 9 (respelled "# ≠
(a ≠ ×") = .error ⟨.noPrefixRule "*", ⟨2, 7⟩⟩ := by
  have htext : respelled "# ≠
(a ≠ ×" = "# !=
(a != *" := by decide
  have hlength : (respelled "# ≠
(a ≠ ×").length ≤ 2 ^ 32 - 2 := by rw [htext]; decide
  exact ⟨hlength, parseWithin_respelled hlength 9, by cbv, by rw [htext]; cbv⟩

end Precedence

import Precedence.Proofs.Comments
import Precedence.Proofs.Account
import Precedence.Proofs.Paths

/-!
# The empty expression

The empty expression stands for a text without anything to read, and only for that. By any grammar a
parse has it for a stream of nothing but the closing token, where there is nothing to put around it.
In any other stream each token read has its part in the expression, and the end of the row has none,
so that what is spelled has no empty node, and names for callees (`Spells.filled`).
-/

namespace Precedence

variable {g : Grammar} {maxDepth : Nat} {tokens : List Token} {e c m : Expr} {source : String}

/-! ## Filled expressions -/

namespace Expr

mutual

/-- No node is empty, and what is called is a name. -/
def Filled : Expr → Prop
  | empty => False
  | number _ _ | identifier _ _ => True
  | unary _ operand _ => operand.Filled
  | binary _ left right _ | juxtaposed _ left right => left.Filled ∧ right.Filled
  | call callee arguments _ => callee.isIdentifier = true ∧ callee.Filled ∧ AllFilled arguments

def AllFilled : List Expr → Prop
  | [] => True
  | e :: rest => e.Filled ∧ AllFilled rest

end

theorem AllFilled.of_mem {es : List Expr} (h : AllFilled es) : ∀ e ∈ es, e.Filled := by
  induction es with
  | nil => exact nofun
  | cons e es ih => exact List.forall_mem_cons.mpr ⟨h.1, ih h.2⟩

theorem Filled.child {edge : Edge} (h : e.Filled) (hc : e.child? edge = some c) : c.Filled := by
  cases e with
  | empty | number | identifier => cases edge <;> cases hc
  | unary =>
    cases edge <;> cases hc
    exact h
  | binary | juxtaposed =>
    cases edge <;> cases hc
    exacts [h.1, h.2]
  | call =>
    cases edge with
    | callee =>
      cases hc
      exact h.2.1
    | argument => exact h.2.2.of_mem c (List.mem_of_getElem? hc)
    | _ => cases hc

/-- Below a filled expression everything is filled. -/
theorem Filled.descend {path : List Edge} (h : e.Filled) (hm : e.descend path = some m) :
    m.Filled := by
  induction path generalizing e with
  | nil =>
    obtain rfl : e = m := Option.some.inj (descend_nil.symm.trans hm)
    exact h
  | cons edge path ih =>
    obtain ⟨c, hc, hpath⟩ := exists_child?_of_descend hm
    exact ih (h.child hc) hpath

end Expr

mutual

/-- Whatever tokens spell is filled: none of their parts is that of an end. -/
theorem Spells.filled : ∀ {ts e}, Spells g ts e → e.Filled
  | _, _, .number .. | _, _, .identifier .. => trivial
  | _, _, .signed _ _ he | _, _, .group _ he _ => he.filled
  | _, _, .binary _ _ hl hr | _, _, .juxtaposed _ _ hl hr => ⟨hl.filled, hr.filled⟩
  | _, _, .emptyCall _ hf hname _ => ⟨hname, hf.filled, trivial⟩
  | _, _, .call _ hf hname hes _ => ⟨hname, hf.filled, hes.allFilled⟩

theorem SpellsArguments.allFilled : ∀ {ts es}, SpellsArguments g ts es → Expr.AllFilled es
  | _, _, .last he => ⟨he.filled, trivial⟩
  | _, _, .cons he _ hes => ⟨he.filled, hes.allFilled⟩

end

/-! ## Where the empty expression may be -/

/-- There is no token but one that marks the end. -/
def NothingToRead (tokens : List Token) : Prop :=
  tokens = [] ∨ ∃ t, tokens = [t] ∧ t.kind = .eof

theorem nothingToRead_of_isBlank (h : (Stream.ofList tokens).isBlank = true) :
    NothingToRead tokens := by
  rcases List.eq_nil_or_concat tokens with rfl | ⟨row, t, rfl⟩
  · exact .inl rfl
  rw [List.concat_eq_append] at h ⊢
  by_cases heof : t.kind = .eof
  · rw [Stream.ofList_concat heof] at h
    obtain rfl : row = [] := by simpa [Stream.isBlank] using h
    exact .inr ⟨t, rfl, heof⟩
  · have hne : (Stream.ofList (row ++ [t])).body = (row ++ [t]).toArray := by
      simp [Stream.ofList, heof]
    rw [Stream.isBlank, hne] at h
    simp at h

/-- The empty expression is the whole of a tree or nowhere in it, and what is called is a name. -/
structure EmptyAlone (tokens : List Token) (e : Expr) : Prop where
  whole : e = .empty → NothingToRead tokens
  below : ∀ path, path ≠ [] → e.descend path ≠ some .empty
  callee : ∀ path f arguments position, e.descend path = some (.call f arguments position) →
    f.isIdentifier = true

theorem Expr.Filled.emptyAlone (h : e.Filled) : EmptyAlone tokens e where
  whole hempty := absurd h (hempty ▸ id)
  below _ _ hm := h.descend hm
  callee _ _ _ _ hm := (h.descend hm).1

theorem emptyAlone_empty (h : NothingToRead tokens) : EmptyAlone tokens .empty := by
  have hleaf : ∀ edge path, Expr.empty.descend (edge :: path) = none := fun edge path => by
    rw [Expr.descend_cons]
    cases edge <;> rfl
  refine ⟨fun _ => h, fun path hne => ?_, fun path f arguments position hm => ?_⟩
  · obtain ⟨edge, path, rfl⟩ := List.exists_cons_of_ne_nil hne
    rw [hleaf]
    exact nofun
  · cases path with
    | nil => cases hm
    | cons edge path => rw [hleaf] at hm; cases hm

/-- Whatever the grammar, a tree is the empty expression or has none in it. -/
theorem emptyAlone_of_parseTokens (h : parseTokens g maxDepth tokens = .ok e) :
    EmptyAlone tokens e := by
  obtain ⟨t, hread, -⟩ := exists_readsFirst h
  cases hblank : (Stream.ofList tokens).isBlank with
  | false =>
    obtain ⟨ts, -, he⟩ := (Parser.ends_of_ok hread.2).mp
      (Parser.writes_expr (p := ⟨g, .ofList tokens, maxDepth⟩) hblank maxDepth .default .start)
    exact he.filled.emptyAlone
  | true =>
    obtain rfl : e = .empty := by
      by_contra hne
      rw [isBlank_of_readsFirst hread hne] at hblank
      cases hblank
    exact emptyAlone_empty (nothingToRead_of_isBlank hblank)

/-! ## Texts -/

/-- A text with one segment is a gap. -/
theorem Divides.isGap_of_length_le {text : List Char} {segments : List Segment}
    (h : Divides text segments) (hlength : segments.length ≤ 1) : IsGap text [] := by
  cases h with
  | last hgap => exact hgap
  | segment _ _ _ h =>
    cases h <;> simp at hlength

theorem tokensOf_scan_of_isGap (h : IsGap source.toList []) :
    tokensOf (scan source) = [.eof (Position.origin.afterAll source.toList)] := by
  rw [tokensOf_scan_of_divides (.last h), dividedTokens_last]

theorem parseWithin_of_isGap (h : IsGap source.toList []) (hdepth : 0 < maxDepth) :
    parseWithin maxDepth source = .ok .empty := by
  have htokens := tokensOf_scan_of_isGap h
  have hfaults : faultsOf (scan source) = [] := by
    refine @faultsOf_eq_nil none (.ofString source) ?_
    change ∀ t ∈ tokensOf (scan source), t.kind ≠ .error
    rw [htokens]
    exact List.forall_mem_singleton.mpr (by simp [Token.eof])
  rw [parseWithin, tokenize, hfaults, htokens]
  exact (@parseTokens_eq_ok_iff_derivesIn [] _ _ _ (List.forall_mem_nil _) rfl hdepth).mpr
    (.inl ⟨rfl, rfl⟩)

theorem isGap_of_parseWithin (h : parseWithin maxDepth source = .ok .empty) :
    IsGap source.toList [] := by
  obtain ⟨segments, hdivides⟩ := exists_divides source.toList
  have hnothing := (emptyAlone_of_parseTokens (parseTokens_of_parseWithin h)).whole rfl
  -- There are as many segments as tokens that are written, so there is one at most.
  refine hdivides.isGap_of_length_le ?_
  have hwords := congrArg List.length
    (words_dividedTokens hdivides.kind_ne_implicitStar .eof .origin)
  rw [← tokensOf_scan_of_divides hdivides, List.length_map, List.length_map] at hwords
  rw [← hwords]
  refine Nat.le_trans (List.length_filter_le _ _) ?_
  rcases hnothing with hnil | ⟨t, ht, -⟩
  · rw [hnil]
    exact Nat.zero_le _
  · rw [ht]
    exact Nat.le_refl _

/-- A text stands for the empty expression exactly if it is white space and comments; and no tree,
of whatever grammar and tokens, has the empty expression in it or something else than a name
called. -/
theorem empty_exactly_for_blank :
    (∀ source maxDepth, 0 < maxDepth →
      (parseWithin maxDepth source = .ok .empty ↔ IsGap source.toList [])) ∧
    ∀ g maxDepth tokens e, parseTokens g maxDepth tokens = .ok e → EmptyAlone tokens e :=
  ⟨fun _ _ hdepth => ⟨isGap_of_parseWithin, fun h => parseWithin_of_isGap h hdepth⟩,
    fun _ _ _ _ => emptyAlone_of_parseTokens⟩

/-- A comment between two lines without words, and a call by rules of another grammar. -/
theorem empty_exactly_for_comment_line :
    (0 < 1 ∧ parseWithin 1 "\t\n# f(x)\r\n " = .ok .empty ∧
      IsGap "\t\n# f(x)\r\n ".toList []) ∧
    parseTokens starGroups 4 starRow = .ok starCall ∧ EmptyAlone starRow starCall := by
  have hblank : parseWithin 1 "\t\n# f(x)\r\n " = .ok .empty := by cbv
  have hcall : parseTokens starGroups 4 starRow = .ok starCall := by cbv
  exact ⟨⟨Nat.one_pos, hblank, (empty_exactly_for_blank.1 _ _ Nat.one_pos).mp hblank⟩, hcall,
    empty_exactly_for_blank.2 _ _ _ _ hcall⟩

end Precedence

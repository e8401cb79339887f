import Precedence.Proofs.Neighbours
import Precedence.Proofs.Uncommented

/-!
# What a comment can change

A comment counts as white space but for one thing: white space between two operands is passed over
when a multiplication sign is looked for, and a comment is not. Where no sign is found two operands
meet, and that is no expression, unless they are a name in parentheses and something else in
parentheses, which is then what the name is called with. So a comment between a closing parenthesis
and the opening one behind it makes a call of a product, and no comment anywhere else changes an
expression (`parse_uncommented`).
-/

namespace Precedence

/-- A comment stands between a closing parenthesis and an opening one that is the next lexeme. -/
def CommentBetweenParens (source : String) : Prop :=
  ∃ segments, Divides source.toList segments ∧ ∃ front s next back,
    segments = front ++ s :: next :: back ∧
      s.kind = .closeParen ∧ next.kind = .openParen ∧ '#' ∈ next.gap

variable {source : String} {a b e : Expr} {segments front back : List Segment} {s next : Segment}
  {maxDepth : Nat}

/-! ## Texts that are accepted -/

theorem parseTokens_of_parseWithin (h : parseWithin maxDepth source = .ok e) :
    parseTokens .arithmetic maxDepth (tokensOf (scan source)) = .ok e := by
  unfold parseWithin tokenize at h
  cases hfault : (faultsOf (scan source)).head? with
  | none => rwa [hfault] at h
  | some fault => rw [hfault] at h; cases h

theorem parseTokens_zero_ne_ok {tokens : List Token} :
    parseTokens .arithmetic 0 tokens ≠ .ok e := by
  intro h
  obtain ⟨t, hread, -⟩ := exists_readsFirst h
  cases hread.2

/-- An accepted text is nothing but its end, or its tokens are an expression. -/
theorem derives_of_parseWithin (h : parseWithin maxDepth source = .ok e) :
    ∃ row p, tokensOf (scan source) = row ++ [.eof p] ∧
      ((row = [] ∧ e = .empty) ∨ Derives .comparison row e) := by
  obtain ⟨segments, hdivides⟩ := exists_divides source.toList
  obtain ⟨row, hrow, heof⟩ := hdivides.exists_row .eof .origin
  rw [← tokensOf_scan_of_divides hdivides] at hrow
  have htokens := parseTokens_of_parseWithin h
  rw [hrow] at htokens
  have hdepth : 0 < maxDepth := Nat.pos_of_ne_zero fun hzero =>
    parseTokens_zero_ne_ok (hzero ▸ htokens)
  exact ⟨row, _, hrow, derives_of_parseTokens heof rfl hdepth htokens⟩

/-- The tree of a text tells how many signs nobody wrote. -/
theorem countP_walk_of_parse (h : parse source = .ok e) :
    e.walk.countP Expr.isJuxtaposed = countSigns (tokensOf (scan source)) := by
  obtain ⟨row, p, hrow, hderives⟩ := derives_of_parseWithin h
  have hlast : countSigns [.eof p] = 0 := rfl
  rw [hrow, countSigns_append, hlast, Nat.add_zero]
  rcases hderives with ⟨rfl, rfl⟩ | he
  · rfl
  · exact he.countP_walk

theorem isChain_of_parse (h : parse source = .ok e) :
    (tokensOf (scan source)).IsChain Beside := by
  obtain ⟨row, p, hrow, hderives⟩ := derives_of_parseWithin h
  have hchain : row.IsChain Beside := by
    rcases hderives with ⟨rfl, -⟩ | he
    · exact .nil
    · exact he.isChain
  have hlast : ∀ t, Beside t (.eof p) := fun _ => beside_of_right ⟨nofun, nofun, nofun⟩
  rw [hrow]
  exact List.isChain_append.mpr ⟨hchain, .singleton _, fun t _ _ hhead => by
    cases hhead
    exact hlast t⟩

/-! ## Lexemes that a comment keeps apart -/

/-- In an accepted text only parentheses can have a comment in place of a sign. -/
theorem kinds_of_parse (h : parse source = .ok e)
    (hdivides : Divides source.toList (front ++ s :: next :: back))
    (hmultiplies : s.kind.multiplies next.kind = true) (hcomment : '#' ∈ next.gap) :
    s.kind = .closeParen ∧ next.kind = .openParen := by
  have hchain := isChain_of_parse h
  rw [tokensOf_scan_of_divides hdivides] at hchain
  obtain ⟨ts, q, hsplit⟩ := exists_dividedTokens_eq .eof .origin front s (next :: back)
  obtain ⟨behind, hgap⟩ := hdivides.exists_isGap next (by simp)
  have hnone : next.sign s.kind (q.afterAll s.text) = [] := by
    rw [Segment.sign, isJoined_eq hgap]
    simp [hcomment]
  rw [dividedTokens, hnone] at hsplit
  exact List.isChain_iff_forall_rel_of_append_cons_cons.mp hchain hsplit hmultiplies

theorem isChain_plain_of_parse (h : parse source = .ok e) (hdivides : Divides source.toList segments)
    (hnone : ¬ CommentBetweenParens source) :
    ((⟨[], .eof, []⟩ : Segment) :: segments).IsChain Plain := by
  refine List.isChain_cons.mpr ⟨fun _ _ => nofun, ?_⟩
  refine List.isChain_iff_forall_rel_of_append_cons_cons.mpr fun s next front back heq => ?_
  subst heq
  intro hmultiplies hcomment
  obtain ⟨hs, hnext⟩ := kinds_of_parse h hdivides hmultiplies hcomment
  exact hnone ⟨_, hdivides, front, s, next, back, rfl, hs, hnext, hcomment⟩

/-! ## Texts with and without comments -/

/-- If a text is accepted with its comments and without them, it stands for the same expression,
places included, exactly if no comment stands between a closing parenthesis and an opening one. -/
theorem parse_uncommented (ha : parse source = .ok a) (hb : parse (uncommented source) = .ok b) :
    a = b ↔ ¬ CommentBetweenParens source := by
  obtain ⟨segments, h⟩ := exists_divides source.toList
  have htokens := tokensOf_scan_of_divides h
  have htokens' : tokensOf (scan (uncommented source)) =
      dividedTokens .eof .origin (segments.map Segment.uncommented) :=
    tokensOf_scan_of_divides (by rw [uncommented, String.toList_ofList]; exact h.uncomment)
  constructor
  · rintro rfl ⟨others, hothers, front, s, next, back, rfl, hs, hnext, hcomment⟩
    obtain rfl := hothers.unique h
    have hsigns := (countP_walk_of_parse ha).symm.trans (countP_walk_of_parse hb)
    rw [htokens, htokens'] at hsigns
    have hchain := (@countSigns_uncommented _ _ ⟨[], .eof, []⟩ h.exists_isGap).2 hsigns
    have hplain : Plain s next :=
      List.isChain_iff_forall_rel_of_append_cons_cons.mp hchain (List.cons_append ..).symm
    exact hplain (by rw [hs, hnext]; rfl) hcomment
  · intro hnone
    have hchain := isChain_plain_of_parse ha h hnone
    have hsame : tokensOf (scan (uncommented source)) = tokensOf (scan source) := by
      rw [htokens, htokens']
      exact dividedTokens_uncommented h.exists_isGap hchain
    have ha := parseTokens_of_parseWithin ha
    have hb := parseTokens_of_parseWithin hb
    rw [hsame] at hb
    exact Except.ok.inj (ha.symm.trans hb)

/-- The comment between `(f)` and `(x)` on the next line makes a call of what is a product without
it. -/
theorem parse_commentBetweenParens :
    uncommented "(f)#\n(x)" = "(f) \n(x)" ∧
      parse "(f)#\n(x)" =
        .ok (.call (.identifier "f" ⟨1, 2⟩) [.identifier "x" ⟨2, 2⟩] ⟨2, 1⟩) ∧
      parse "(f) \n(x)" =
        .ok (.juxtaposed .multiply (.identifier "f" ⟨1, 2⟩) (.identifier "x" ⟨2, 2⟩)) ∧
      ¬ ∀ source a b, parse source = .ok a → parse (uncommented source) = .ok b → a = b := by
  have htext : uncommented "(f)#\n(x)" = "(f) \n(x)" := by decide
  obtain ⟨hcall, hproduct⟩ : parse "(f)#\n(x)" =
        .ok (.call (.identifier "f" ⟨1, 2⟩) [.identifier "x" ⟨2, 2⟩] ⟨2, 1⟩) ∧
      parse "(f) \n(x)" =
        .ok (.juxtaposed .multiply (.identifier "f" ⟨1, 2⟩) (.identifier "x" ⟨2, 2⟩)) := by
    constructor <;> cbv
  refine ⟨htext, hcall, hproduct, fun hsame => ?_⟩
  cases hsame _ _ _ hcall (htext ▸ hproduct)

/-- A comment between a name and its arguments, or among these, changes nothing. -/
theorem parse_uncommented_call :
    parse "f # of\n((y)x, # and\nz)" = parse (uncommented "f # of\n((y)x, # and\nz)") ∧
      ¬ CommentBetweenParens "f # of\n((y)x, # and\nz)" := by
  have htext : uncommented "f # of\n((y)x, # and\nz)" = "f     \n((y)x,      \nz)" := by decide
  obtain ⟨e, hwith, hwithout⟩ : ∃ e, parse "f # of\n((y)x, # and\nz)" = .ok e ∧
      parse "f     \n((y)x,      \nz)" = .ok e := by
    refine ⟨.call (.identifier "f" ⟨1, 1⟩)
      [.juxtaposed .multiply (.identifier "y" ⟨2, 3⟩) (.identifier "x" ⟨2, 5⟩),
        .identifier "z" ⟨3, 1⟩] ⟨2, 1⟩, ?_⟩
    constructor <;> cbv
  rw [← htext] at hwithout
  exact ⟨hwith.trans hwithout.symm, (parse_uncommented hwith hwithout).mp rfl⟩

end Precedence

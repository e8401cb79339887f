import Precedence.Proofs.Comments
import Precedence.Proofs.Insertion
import Precedence.Proofs.Occurrence

/-!
# Parentheses leave no trace

Put in parentheses, any node of an expression but the callee of a call stands for what it stood for
(`parseWithin_parenthesised`). Scanning a parenthesis gives a token and, it may be, a
multiplication sign nobody wrote. In front of the opening one there is such a sign exactly if there
was one in front of the node, since no operand ends there without one; behind the closing one there
is one exactly if there was one behind the node (`words_parenthesised`). So the tokens are those of
the text with two more, which make a group.
-/

namespace Precedence

/-- The text with an opening parenthesis put in at one offset and a closing one at another, which is
not the earlier of the two. -/
def parenthesised (source : String) (i j : Nat) : String := putIn (putIn source j ")") i "("

/-- The node that the path leads to, in a tree that the tokens of the text have within so many
levels, is made of the lexemes from one offset up to the other. The parentheses that already stand
around the node are left out. -/
def NodeAt (source : String) (maxDepth : Nat) (n : Expr) (path : List Edge) (i j : Nat) : Prop :=
  ∃ pre mid post p, tokensOf (scan source) = pre ++ (mid ++ (post ++ [.eof p])) ∧
    OccursIn maxDepth .comparison n path pre mid post ∧ Fills source pre mid i j

variable {source : String} {i j maxDepth : Nat} {front middle back : List Segment} {s : Segment}
  {behind : List Char} {pre mid post : List Token} {t : Token} {kind : TokenKind} {m n : Expr}
  {path : List Edge}

/-! ## Lexemes -/

/-- The only word of a kind is a lexeme wherever it stands. -/
theorem isLexeme_single {x : Char} (h : ∀ word, kind.IsWord word ↔ word = [x]) :
    IsLexeme kind [x] behind :=
  .word ((h [x]).mpr rfl) fun more _ hmore => by simpa using (h ([x] ++ more)).mp hmore

/-- The parentheses are lexemes, and the others are what they were. -/
theorem Divides.parenthesised (h : Divides source.toList (front ++ s :: (middle ++ back)))
    (hback : back ≠ []) :
    Divides (parenthesised source (written front ++ s.gap).length
        (written (front ++ s :: middle)).length).toList
      (front ++ ⟨s.gap, .openParen, ['(']⟩ :: ⟨[], s.kind, s.word⟩ ::
        (middle ++ ⟨[], .closeParen, [')']⟩ :: back)) := by
  rw [← List.cons_append, ← List.append_assoc] at h
  have hclose : Divides ([] ++ ')' :: written back) (⟨[], .closeParen, [')']⟩ :: back) :=
    .segment rfl .nil (isLexeme_single fun _ => .rfl) (h.tail_of_append hback)
  have hclosed := h.insert solitary_closeParen hback (List.nil_append _).symm hclose
  rw [List.append_assoc, List.cons_append] at hclosed
  obtain ⟨hgap, hword, hrest⟩ := (hclosed.tail_of_append (List.cons_ne_nil s _)).of_cons (by simp)
  have hopen := Divides.segment (s := ⟨s.gap, .openParen, ['(']⟩) rfl
    (hgap.anywhere_of_isLexeme hword) (isLexeme_single fun _ => .rfl)
    (.segment (s := ⟨[], s.kind, s.word⟩) rfl .nil hword hrest)
  have hopened := hclosed.insert solitary_openParen (List.cons_ne_nil s _) (written_cons _ _) hopen
  -- What is written by the last division is the text with both parentheses put in.
  have hsource : source.toList = written (front ++ s :: middle) ++ written back := by
    rw [← written_append, h.written_eq]
  have hfirst : (putIn source (written (front ++ s :: middle)).length ")").toList =
      (written front ++ s.gap) ++
        (s.word ++ written (middle ++ ⟨[], .closeParen, [')']⟩ :: back)) := by
    rw [toList_putIn hsource]
    simp
  rw [Precedence.parenthesised, toList_putIn hfirst, List.append_assoc]
  exact hopened

/-! ## Signs nobody wrote -/

/-- The last of the words is that of the last lexeme. -/
theorem dividedWords_concat (before : TokenKind) (front : List Segment) (s : Segment) :
    dividedWords before (front ++ [s]) =
      dividedWords before front ++ s.signWords (lastKind before front) ++
        [(s.kind, .ofList s.word)] := by
  rw [dividedWords_append, List.append_assoc]
  rfl

theorem exists_getLast_of_words {ws : List (TokenKind × String)} {w : TokenKind × String}
    (h : words pre = ws ++ [w]) : ∃ t ∈ pre.getLast?, t.kind = w.1 := by
  rcases List.eq_nil_or_concat pre with rfl | ⟨ts, t, rfl⟩
  · exact absurd h (by simp [words])
  · rw [List.concat_eq_append] at h ⊢
    rw [words_append] at h
    have hlast := (List.append_inj' h rfl).2
    exact ⟨t, List.getLast?_concat, congrArg Prod.fst (List.cons.inj hlast).1⟩

/-- Behind tokens that end with no operand an opening parenthesis is multiplied as the lexeme is. -/
theorem multiplies_openParen
    (hwords : words pre = dividedWords .eof front ++ s.signWords (lastKind .eof front))
    (hpre : ∀ t ∈ pre.getLast?, ¬ t.EndsOperand) :
    (lastKind .eof front).multiplies .openParen = (lastKind .eof front).multiplies s.kind := by
  by_cases hends : lastKind .eof front = .number ∨ lastKind .eof front = .closeParen
  · have hopen : (lastKind .eof front).multiplies .openParen = true := by
      rcases hends with hk | hk <;> rw [hk] <;> rfl
    have hjoined : s.isJoined (lastKind .eof front) = true := by
      -- Without a sign, the last token would be that of the last lexeme, an operand.
      by_contra hnone
      rw [Segment.signWords, if_neg hnone, List.append_nil] at hwords
      rcases List.eq_nil_or_concat front with rfl | ⟨init, x, rfl⟩
      · rcases hends with hk | hk <;> cases hk
      · rw [List.concat_eq_append] at hwords hends
        rw [dividedWords_concat] at hwords
        rw [lastKind_append] at hends
        obtain ⟨t, ht, htk⟩ := exists_getLast_of_words hwords
        exact hpre t ht (hends.imp htk.trans htk.trans)
    rw [hopen, (Bool.and_eq_true_iff.mp hjoined).1]
  · rw [Bool.eq_false_iff.mpr (mt TokenKind.endsOperand_of_multiplies hends),
      Bool.eq_false_iff.mpr (mt TokenKind.endsOperand_of_multiplies hends)]

/-- Before tokens that begin with no operand a closing parenthesis multiplies as the lexeme does. -/
theorem multiplies_closeParen {b : Segment} (hwords : words post = dividedWords kind (b :: back))
    (hpost : ∀ u ∈ post.head?, u.kind ≠ .identifier ∧ u.kind ≠ .number ∧ u.kind ≠ .openParen) :
    TokenKind.closeParen.multiplies b.kind = kind.multiplies b.kind := by
  by_cases hbegins : b.kind = .identifier ∨ b.kind = .number ∨ b.kind = .openParen
  · have hclose : TokenKind.closeParen.multiplies b.kind = true := by
      rcases hbegins with hk | hk | hk <;> rw [hk] <;> rfl
    have hjoined : b.isJoined kind = true := by
      -- Without a sign, the first token would be that of the first lexeme, an operand.
      by_contra hnone
      rw [dividedWords, Segment.signWords, if_neg hnone, List.nil_append] at hwords
      cases post with
      | nil => cases hwords
      | cons u post =>
        obtain ⟨hidentifier, hnumber, hopen⟩ := hpost u rfl
        have hk : u.kind = b.kind := congrArg Prod.fst (List.cons.inj hwords).1
        rw [← hk] at hbegins
        rcases hbegins with hk | hk | hk
        · exact hidentifier hk
        · exact hnumber hk
        · exact hopen hk
    rw [hclose, (Bool.and_eq_true_iff.mp hjoined).1]
  · rw [Bool.eq_false_iff.mpr (mt TokenKind.beginsOperand_of_multiplies hbegins),
      Bool.eq_false_iff.mpr (mt TokenKind.beginsOperand_of_multiplies hbegins)]

/-- The text in parentheses has two words more. -/
theorem words_parenthesised (h : Fills source pre (t :: mid) i j)
    (htokens : tokensOf (scan source) = pre ++ (t :: mid ++ post)) (ht : t.kind ≠ .implicitStar)
    (hlast : ∃ v ∈ (t :: mid).getLast?, v.kind ≠ .implicitStar) (hpost : withoutSigns post ≠ [])
    (hapart : StandsApart pre post) :
    words (tokensOf (scan (parenthesised source i j))) =
      words pre ++ (.openParen, "(") :: (words (t :: mid) ++ (.closeParen, ")") :: words post) := by
  obtain ⟨front, s, middle, back, hdivides, hback, rfl, rfl, hpreWords, hmidWords, hpostWords⟩ :=
    h.exists_words htokens ht hlast hpost
  obtain ⟨b, back, rfl⟩ := List.exists_cons_of_ne_nil hback
  have hopen := multiplies_openParen hpreWords hapart.left
  have hclose := multiplies_closeParen hpostWords hapart.right
  rw [words_scan_of_divides (hdivides.parenthesised hback), hpreWords, hmidWords, hpostWords]
  have hfirst : TokenKind.openParen.multiplies s.kind = false := rfl
  have hnone : (lastKind s.kind middle).multiplies .closeParen = false := by
    cases lastKind s.kind middle <;> rfl
  have hleft : String.ofList ['('] = "(" := rfl
  have hright : String.ofList [')'] = ")" := rfl
  simp only [dividedWords_append, dividedWords, Segment.signWords, Segment.isJoined, hopen, hclose,
    hfirst, hnone, hleft, hright, Bool.false_and, Bool.false_eq_true, if_false, List.nil_append,
    List.cons_append, List.append_assoc]
  rfl

/-! ## Parsing -/

/-- A node begins and ends with tokens that are written. -/
theorem OccursIn.written_mid {level : Level} (h : OccursIn maxDepth level n path pre mid post) :
    (∃ t rest, mid = t :: rest ∧ t.kind ≠ .implicitStar) ∧
      ∃ v ∈ mid.getLast?, v.kind ≠ .implicitStar := by
  obtain ⟨m, depth, level, -, hm⟩ := h.exists_produces
  constructor
  · obtain ⟨t, rest, hmid, ht⟩ := hm.derives.begins
    exact ⟨t, rest, hmid, fun hk => ht (by rw [hk]; rfl)⟩
  · obtain ⟨v, hv, hk⟩ := hm.derives.ends
    exact ⟨v, hv, by rcases hk with hk | hk | hk <;> rw [hk] <;> nofun⟩

theorem DerivesIn.exists_nodeAt {row : List Token} {p : Position}
    (he : DerivesIn maxDepth .comparison row n) (hm : n.descend path = some m)
    (hpath : path.getLast? ≠ some .callee) (htokens : tokensOf (scan source) = row ++ [.eof p]) :
    ∃ i j, NodeAt source maxDepth n path i j := by
  obtain ⟨pre, mid, post, rfl, h⟩ := he.exists_occursIn hm hpath
  rw [List.append_assoc, List.append_assoc] at htokens
  obtain ⟨⟨t, rest, rfl, ht⟩, -⟩ := h.written_mid
  obtain ⟨i, j, hfills⟩ := exists_fills htokens (by
    rw [withoutSigns_cons ht]
    exact List.cons_ne_nil _ _)
  exact ⟨i, j, pre, t :: rest, post, p, htokens, h, hfills⟩

/-- With parentheses around a node the tokens are an expression of the same tree. -/
theorem NodeAt.accepted (h : NodeAt source maxDepth n path i j) :
    ∃ e, parseWithin (maxDepth + 1) (parenthesised source i j) = .ok e ∧
      e.placeless = n.placeless := by
  obtain ⟨pre, mid, post, p, htokens, hoccurs, hfills⟩ := h
  obtain ⟨⟨t, rest, rfl, ht⟩, hlast⟩ := hoccurs.written_mid
  let o : Token := ⟨.openParen, "(", .point p⟩
  let c : Token := ⟨.closeParen, ")", .point p⟩
  have he : DerivesIn (maxDepth + 1) .comparison (pre ++ o :: (t :: rest ++ c :: post)) n :=
    hoccurs.parenthesised rfl rfl
  have hproper := he.derives.isProper
  have hend : withoutSigns (post ++ [.eof p]) ≠ [] := by
    rw [withoutSigns_append]
    exact List.append_ne_nil_of_right_ne_nil _ (List.cons_ne_nil _ _)
  have hapart : StandsApart pre (post ++ [.eof p]) :=
    hoccurs.apart.append_right [] (by simp [Token.eof])
  have hwords : words (tokensOf (scan (parenthesised source i j))) =
      words (pre ++ o :: (t :: rest ++ c :: post) ++ [.eof p]) := by
    rw [words_parenthesised hfills htokens ht hlast hend hapart]
    simp [words, o, c]
  have hparse : parseTokens .arithmetic (maxDepth + 1)
      (pre ++ o :: (t :: rest ++ c :: post) ++ [.eof p]) = .ok n :=
    (parseTokens_eq_ok_iff_derivesIn (fun v hv => (hproper v hv).1) rfl (Nat.succ_pos _)).mpr
      (.inr he)
  have heof : (Token.eof p).kind ≠ .error := by simp [Token.eof]
  have herror : ∀ v ∈ pre ++ o :: (t :: rest ++ c :: post) ++ [.eof p], v.kind ≠ .error :=
    List.forall_mem_append.mpr ⟨fun v hv => (hproper v hv).2, List.forall_mem_singleton.mpr heof⟩
  have hresult := withoutPlaces_parseWithin_of_words herror hwords (maxDepth + 1)
  rw [hparse] at hresult
  cases hnew : parseWithin (maxDepth + 1) (parenthesised source i j) with
  | error fault =>
    rw [hnew] at hresult
    cases hresult
  | ok e =>
    rw [hnew] at hresult
    exact ⟨e, rfl, Except.ok.inj hresult⟩

/-- In an accepted text that is not empty, every node of the tree but the callee of a call lies
somewhere in the text, and put in parentheses there it stands for the same: the text is accepted
with one level of nesting more, and its tree is the same, places apart. -/
theorem parseWithin_parenthesised (h : parseWithin maxDepth source = .ok n) (hn : n ≠ .empty)
    (hm : n.descend path = some m) (hpath : path.getLast? ≠ some .callee) :
    (∃ i j, NodeAt source maxDepth n path i j) ∧
      ∀ i j, NodeAt source maxDepth n path i j →
        ∃ e, parseWithin (maxDepth + 1) (parenthesised source i j) = .ok e ∧
          e.placeless = n.placeless := by
  refine ⟨?_, fun i j => NodeAt.accepted⟩
  obtain ⟨segments, hdivides⟩ := exists_divides source.toList
  obtain ⟨row, hrow, heof⟩ := hdivides.exists_row .eof .origin
  rw [← tokensOf_scan_of_divides hdivides] at hrow
  have htokens := parseTokens_of_parseWithin h
  rw [hrow] at htokens
  have hdepth : 0 < maxDepth := Nat.pos_of_ne_zero fun hzero =>
    parseTokens_zero_ne_ok (hzero ▸ htokens)
  rcases (parseTokens_eq_ok_iff_derivesIn heof rfl hdepth).mp htokens with ⟨-, rfl⟩ | he
  · exact absurd rfl hn
  · exact he.exists_nodeAt hm hpath hrow

/-- The tree of `(k)x^(y+z)`. -/
def productTree : Expr :=
  .juxtaposed .multiply (.identifier "k" ⟨1, 2⟩)
    (.binary .exponent (.identifier "x" ⟨1, 4⟩)
      (.binary .add (.identifier "y" ⟨1, 7⟩) (.identifier "z" ⟨1, 9⟩) ⟨1, 8⟩) ⟨1, 5⟩)

set_option maxRecDepth 1000 in
/-- The base `x`, in parentheses, is the base still, and a factor without a sign. -/
theorem parseWithin_parenthesised_base :
    parseWithin 5 "(k)x^(y+z)" = .ok productTree ∧ productTree ≠ .empty ∧
      productTree.descend [.right, .left] = some (.identifier "x" ⟨1, 4⟩) ∧
      [Edge.right, .left].getLast? ≠ some .callee ∧
      (∃ i j, NodeAt "(k)x^(y+z)" 5 productTree [.right, .left] i j) ∧
      ∀ i j, NodeAt "(k)x^(y+z)" 5 productTree [.right, .left] i j →
        ∃ e, parseWithin 6 (parenthesised "(k)x^(y+z)" i j) = .ok e ∧
          e.placeless = productTree.placeless := by
  have h : parseWithin 5 "(k)x^(y+z)" = .ok productTree := by cbv
  have hn : productTree ≠ .empty := by simp [productTree]
  have hm : productTree.descend [.right, .left] = some (.identifier "x" ⟨1, 4⟩) := rfl
  have hpath : [Edge.right, .left].getLast? ≠ some .callee := by decide
  exact ⟨h, hn, hm, hpath, parseWithin_parenthesised h hn hm hpath⟩

end Precedence

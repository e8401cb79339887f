import Precedence.Proofs.Accepts

/-!
# What is left behind an expression

Behind the expression it has read, a parse looks at one token. If it marks the end, the parse is
over; if not, it is reported as the first of those left over. A row may hold such a mark in its
middle, and then what stands behind the mark is neither read nor reported. So every token of a row
is used (`UsesEveryToken`) except where the expression ends at a mark inside the row, whatever the
grammar; for arithmetic that is where the tokens before the first mark are an expression
(`usesEveryToken_arithmetic_iff`). A row that is the text of something has no mark inside, and
nothing of it is lost (`usesEveryToken_of_dropLast`).
-/

namespace Precedence

/-- Every token before the closing one is used: an expression is accepted with all of them read,
and where some are left over, the parse fails with the first of them. -/
structure UsesEveryToken (g : Grammar) (maxDepth : Nat) (tokens : List Token) : Prop where
  used : ∀ e, parseTokens g maxDepth tokens = .ok e →
    ∃ t, ReadsFirst g maxDepth tokens e t ∧ (Stream.ofList tokens).body.size ≤ t.cursor
  reported : ∀ e t, ReadsFirst g maxDepth tokens e t →
    t.cursor < (Stream.ofList tokens).body.size →
    parseTokens g maxDepth tokens =
      .error ⟨.unusedTokens ((Stream.ofList tokens).token t.cursor).text,
        ((Stream.ofList tokens).token t.cursor).start⟩

section

variable {g : Grammar} {maxDepth : Nat} {tokens : List Token} {e : Expr} {t : Progress}

theorem UsesEveryToken.kind_ne (h : UsesEveryToken g maxDepth tokens)
    (hread : ReadsFirst g maxDepth tokens e t) (hlt : t.cursor < (Stream.ofList tokens).body.size) :
    ((Stream.ofList tokens).token t.cursor).kind ≠ .eof := by
  intro hend
  have hreported := h.reported e t hread hlt
  rw [parseTokens, hread.runTokens_eq] at hreported
  dsimp only at hreported
  rw [if_pos hend] at hreported
  cases hreported

theorem usesEveryToken_of_kind_ne
    (h : ∀ e t, ReadsFirst g maxDepth tokens e t → t.cursor < (Stream.ofList tokens).body.size →
      ((Stream.ofList tokens).token t.cursor).kind ≠ .eof) :
    UsesEveryToken g maxDepth tokens := by
  constructor
  · intro e hok
    obtain ⟨t, hread, hend⟩ := exists_readsFirst hok
    exact ⟨t, hread, Nat.le_of_not_lt fun hlt => h e t hread hlt hend⟩
  · intro e t hread hlt
    rw [parseTokens, hread.runTokens_eq]
    exact if_neg (h e t hread hlt)

/-- Every token is used exactly if the first expression does not end at a mark inside the row. -/
theorem usesEveryToken_iff :
    UsesEveryToken g maxDepth tokens ↔
      ∀ e t, ReadsFirst g maxDepth tokens e t → t.cursor < (Stream.ofList tokens).body.size →
        ((Stream.ofList tokens).token t.cursor).kind ≠ .eof :=
  ⟨fun h _ _ hread hlt => h.kind_ne hread hlt, usesEveryToken_of_kind_ne⟩

/-- Without a mark of the end before the last token every token is used. -/
theorem usesEveryToken_of_dropLast (h : ∀ u ∈ tokens.dropLast, u.kind ≠ .eof) :
    UsesEveryToken g maxDepth tokens :=
  usesEveryToken_of_kind_ne fun _ _ _ hlt => Stream.kind_token_ofList_ne h hlt

end

/-! ## Arithmetic -/

section Arithmetic

variable {ts rest : List Token} {u : Token} {maxDepth : Nat} {e : Expr}

/-- The first mark of a row, and that it is inside. -/
theorem prefix_ofList_mark (ts : List Token) (u : Token) (hne : rest ≠ []) :
    ts ++ [u] <+: (Stream.ofList (ts ++ u :: rest)).tokens ∧
      (Stream.ofList (ts ++ u :: rest)).token ts.length = u ∧
      ts.length < (Stream.ofList (ts ++ u :: rest)).body.size := by
  have hrow : ts ++ [u] <+: (Stream.ofList (ts ++ u :: rest)).tokens :=
    List.IsPrefix.trans ⟨rest, by simp⟩ (Stream.prefix_tokens_ofList _)
  have hlast := (Stream.shows_concat.mp (Stream.shows_of_isPrefix hrow)).2
  have hle := (Stream.prefix_tokens_ofList (ts ++ u :: rest)).length_le
  have hpos := List.length_pos_iff.mpr hne
  simp only [Stream.length_tokens, List.length_append, List.length_cons] at hle
  exact ⟨hrow, by rw [← Nat.zero_add ts.length]; exact hlast, by omega⟩

/-- An expression before a mark of the end is read, whatever stands behind the mark. -/
theorem Derives.exists_readsFirst (he : Derives .comparison ts e) (hu : u.kind = .eof)
    (hrest : ∀ v ∈ rest, v.kind ≠ .error) (hne : rest ≠ []) (hdepth : ts.length ≤ maxDepth) :
    ∃ t, ReadsFirst .arithmetic maxDepth (ts ++ u :: rest) e t ∧ t.cursor = ts.length := by
  have herror : ∀ v ∈ ts ++ u :: rest, v.kind ≠ .error :=
    List.forall_mem_append.mpr ⟨fun v hv => (he.isProper v hv).2,
      List.forall_mem_cons.mpr ⟨by simp [hu], hrest⟩⟩
  obtain ⟨hrow, -, -⟩ := prefix_ofList_mark ts u hne
  obtain ⟨e', t, hread, rfl, hcursor, -⟩ := (Parser.ends_expr_of_derives
    (p := ⟨.arithmetic, .ofList (ts ++ u :: rest), maxDepth⟩) rfl he hrow (by rw [hu]; decide)
    hdepth).exists_ok
  exact ⟨t, ⟨herror, hread⟩, hcursor⟩

/-- What stands behind a mark inside a row is lost exactly if the tokens before it are an
expression. -/
theorem usesEveryToken_arithmetic_iff (hts : ∀ v ∈ ts, v.IsProper) (hu : u.kind = .eof)
    (hrest : ∀ v ∈ rest, v.kind ≠ .error) (hne : rest ≠ []) (hdepth : ts.length ≤ maxDepth) :
    UsesEveryToken .arithmetic maxDepth (ts ++ u :: rest) ↔ ∀ e, ¬ Derives .comparison ts e := by
  obtain ⟨hrow, htoken, hlt⟩ := prefix_ofList_mark ts u hne
  constructor
  · intro h e he
    obtain ⟨t, hread, hcursor⟩ := he.exists_readsFirst hu hrest hne hdepth
    rw [← hcursor] at htoken hlt
    exact h.kind_ne hread hlt (by rw [htoken]; exact hu)
  · intro h
    refine usesEveryToken_of_kind_ne fun e t ⟨_, hread⟩ _ hend => ?_
    have hblank := Stream.isBlank_of_lt hlt
    obtain ⟨us, hus, he, -⟩ := (Parser.ends_of_ok hread).mp
      (Parser.sound_expr (p := ⟨.arithmetic, .ofList (ts ++ u :: rest), maxDepth⟩) rfl hblank
        maxDepth .default .start (Nat.zero_le _))
    -- The expression stops at the first mark: it holds none itself, and none stands before it.
    obtain rfl := eq_of_prefix_mark (fun v hv => (he.isProper v hv).1) (fun v hv => (hts v hv).1)
      hend hu hus.prefix_tokens hrow
    exact h e he

/-- The rows of `a` and of `b`, one behind the other. -/
def twoRows : List Token :=
  [.inLine .identifier "a" 1, .inLine .eof "" 2, .inLine .identifier "b" 3, .inLine .eof "" 4]

/-- Of two rows in one the first is accepted, and the second is lost without a word. -/
theorem not_usesEveryToken_twoRows :
    parseTokens .arithmetic 256 twoRows = .ok (.identifier "a" ⟨1, 1⟩) ∧
      ¬ UsesEveryToken .arithmetic 256 twoRows := by
  have ha : Derives .comparison [.inLine .identifier "a" 1] (.identifier "a" ⟨1, 1⟩) :=
    (Derives.identifier rfl).loosen (by decide)
  have hlost : UsesEveryToken .arithmetic 256 ([.inLine .identifier "a" 1] ++
      .inLine .eof "" 2 :: [.inLine .identifier "b" 3, .inLine .eof "" 4]) ↔ _ :=
    usesEveryToken_arithmetic_iff (by decide) rfl (by decide) (by decide) (by decide)
  exact ⟨by cbv, fun h => hlost.mp h _ ha⟩

end Arithmetic

end Precedence

import Precedence.Proofs.Derivation
import Precedence.Proofs.OperatorTree
import Precedence.Proofs.Whole

/-!
# Rows of operators

By any table of operators the parser makes of a row of operands and operators the one tree over the
row that respects the table (`parseTokens_operandRow`). An expression read at a power is the tree of
a beginning of the row, whose operators all bind more tightly than the power. It ends at an operator
that does not, and that operator may stand above the root of what was read
(`Parser.Grown.follow`): an operator reads its right operand at its own power, or at the level
below if it groups to the right, so what ended the operand binds no more tightly than that.

Each operator opens one level of nesting at most, besides that of the whole.
-/

namespace Precedence

namespace Grammar

/-- The power at which an operator of the kind reads its right operand. -/
def rightPower (g : Grammar) (kind : TokenKind) : Power :=
  if g.GroupsRight kind then (g.power kind).weaker else g.power kind

variable {g : Grammar} {kind kind' : TokenKind}

namespace IsOperatorTable

variable (hg : g.IsOperatorTable)
include hg

theorem rightPower?_eq {rule : InfixRule} (h : g.infixRule? kind = some rule) :
    rule.rightPower? (g.power kind) = some (g.rightPower kind) := by
  cases rule with
  | leftAssociative | juxtaposition => simp [InfixRule.rightPower?, rightPower, GroupsRight, h]
  | rightAssociative => simp [InfixRule.rightPower?, rightPower, GroupsRight, h]
  | call => exact absurd h (hg.not_call kind)

theorem infixRule?_eof : g.infixRule? .eof = none := by
  cases h : g.infixRule? .eof with
  | none => rfl
  | some rule => exact absurd rfl (hg.operator .eof (by rw [h]; nofun))

/-- What is read behind an operator may stand to its right. -/
theorem right_of_lt (h : g.infixRule? kind ≠ none) (hlt : g.rightPower kind < g.power kind') :
    if g.GroupsRight kind then g.power kind ≤ g.power kind'
    else g.power kind < g.power kind' := by
  unfold rightPower at hlt
  split at hlt
  · rename_i hright
    rw [if_pos hright]
    exact (Power.weaker_lt_iff (hg.power_ne kind h)).mp hlt
  · rename_i hright
    rw [if_neg hright]
    exact hlt

/-- What an operator does not take into its right operand may take the operator to its left. -/
theorem left_of_le (h : g.infixRule? kind ≠ none) (h' : g.infixRule? kind' ≠ none)
    (hle : g.power kind ≤ g.rightPower kind') :
    if g.GroupsRight kind then g.power kind < g.power kind'
    else g.power kind ≤ g.power kind' := by
  have hpos := hg.power_ne kind' h'
  have hside := hg.grouping kind kind' h h'
  unfold rightPower at hle
  by_cases hright' : g.GroupsRight kind'
  · rw [if_pos hright', ← Power.not_lt, Power.weaker_lt_iff hpos, Power.le_iff] at hle
    have hlt : g.power kind < g.power kind' := Nat.lt_of_not_le hle
    split
    · exact hlt
    · exact Nat.le_of_lt hlt
  · rw [if_neg hright'] at hle
    split
    · rename_i hright
      refine Nat.lt_of_le_of_ne hle fun heq => hright' ?_
      exact (hside (Power.rank_injective heq)).mp hright
    · exact hle

end IsOperatorTable

end Grammar

namespace Parser

variable {p : Parser} {s t : Progress} {power : Power} {room : Nat} {row : OperandRow}
  {last : Token} {tree : OperatorTree} {e : Expr} {i j k : Nat}

/-- A beginning of the row has been read from one cursor to the other, and the expression is that
of a tree over it. -/
structure Grown (p : Parser) (power : Power) (i : Nat) (row : OperandRow) (tree : OperatorTree)
    (e : Expr) (j : Nat) : Prop where
  first : tree.row.first = row.first
  rest : tree.row.rest <+: row.rest
  cursor : j = i + tree.row.tokens.length
  respects : tree.Respects p.grammar
  expr : tree.expr? p.grammar = some e
  /-- The operators read bind more tightly than the power. -/
  tighter : ∀ u, tree.root? = some u → power < p.grammar.power u.kind
  /-- The next token may stand above the root. -/
  follow : ∀ u, tree.root? = some u →
    p.grammar.power (p.stream.token j).kind ≤ p.grammar.rightPower u.kind

theorem operandOf_eq {t : Token} (h : t.IsOperand) (g : Grammar) :
    ∃ e, operandOf t = .ok e ∧ (OperatorTree.operand t).expr? g = some e := by
  rcases h with ⟨hk, hv⟩ | hk
  · obtain ⟨value, hvalue⟩ := Option.ne_none_iff_exists'.mp hv
    simp only [operandOf, OperatorTree.expr?, hk, hvalue]
    exact ⟨_, rfl, rfl⟩
  · simp only [operandOf, OperatorTree.expr?, hk]
    exact ⟨_, rfl, rfl⟩

/-- A row begins with its first operand. -/
theorem grown_beginning (hg : p.grammar.IsOperatorTable)
    (hshow : p.stream.Shows s.cursor (row.tokens ++ [last])) (hfirst : row.first.IsOperand) :
    Ends (p.beginning (p.expr room) power) s
      (fun e t => ∃ tree, p.Grown power s.cursor row tree e t.cursor) fun _ _ => False := by
  have hk : row.first.kind ≠ .eof := by
    rcases hfirst with ⟨hk, -⟩ | hk <;> rw [hk] <;> nofun
  have hrule : p.grammar.prefixRule? row.first.kind = some .operand := by
    rcases hfirst with ⟨hk, -⟩ | hk
    · rw [hk, hg.number]
    · rw [hk, hg.identifier]
  obtain ⟨hcur, hadv, -⟩ := read_of_shows hshow hk
  obtain ⟨e, he, hexpr⟩ := operandOf_eq hfirst p.grammar
  rw [ends_beginning, hcur, hrule]
  dsimp only
  rw [ends_prefixRule]
  dsimp only
  rw [ends_settle, he]
  refine ⟨.operand row.first, rfl, List.nil_prefix, ?_, trivial, hexpr, nofun, nofun⟩
  rw [cursor_noted, hadv]
  rfl

/-- What is left of the row comes next. -/
theorem Grown.shows_rest (h : p.Grown power i row tree e j)
    (hshow : p.stream.Shows i (row.tokens ++ [last])) :
    ∃ todo, tree.row.rest ++ todo = row.rest ∧
      p.stream.Shows j (todo.flatMap (fun x => [x.1, x.2]) ++ [last]) := by
  obtain ⟨todo, htodo⟩ := h.rest
  have htokens : row.tokens ++ [last] =
      tree.row.tokens ++ (todo.flatMap (fun x => [x.1, x.2]) ++ [last]) := by
    simp [OperandRow.tokens, ← htodo, h.first]
  rw [htokens, Stream.shows_append, ← h.cursor] at hshow
  exact ⟨todo, htodo, hshow.2⟩

theorem Grown.infixRule_ne (h : p.Grown power i row tree e j) (hrow : row.Fits p.grammar)
    {u : Token} (hu : tree.root? = some u) : p.grammar.infixRule? u.kind ≠ none := by
  obtain ⟨y, hy⟩ := OperatorTree.mem_row_of_root hu
  exact hrow.operator _ (h.rest.subset hy)

/-- A tree grows by the operator behind it and the tree of its right operand. -/
theorem Grown.operation (hg : p.grammar.IsOperatorTable) (hrow : row.Fits p.grammar)
    (h : p.Grown power i row tree e j) {x : Token × Token} {todo : List (Token × Token)}
    (htodo : tree.row.rest ++ x :: todo = row.rest) (hx : p.stream.token j = x.1)
    (hlt : power < p.grammar.power x.1.kind) {rule : InfixRule} {operator : Operator}
    (hrule : p.grammar.infixRule? x.1.kind = some rule)
    (hop : Operator.ofKind? x.1.kind = some operator) {right : Expr} {rtree : OperatorTree}
    (hr : p.Grown (p.grammar.rightPower x.1.kind) (j + 1) ⟨x.2, todo⟩ rtree right k)
    (hnext : p.grammar.power (p.stream.token k).kind ≤ p.grammar.rightPower x.1.kind) :
    p.Grown power i row (.operation tree x.1 rtree) (rule.node operator e right x.1.start) k := by
  have hne : p.grammar.infixRule? x.1.kind ≠ none := by rw [hrule]; nofun
  have hright : rtree.row.first = x.2 := hr.first
  refine ⟨h.first, ?_, ?_, ⟨h.respects, hr.respects, ?_, ?_⟩, ?_, ?_, ?_⟩
  · rw [OperatorTree.row, OperandRow.join, ← htodo, List.prefix_append_right_inj, hright]
    exact (List.prefix_cons_inj x).mpr hr.rest
  · rw [hr.cursor, h.cursor, OperatorTree.row, OperandRow.tokens_join, List.length_append,
      List.length_cons]
    omega
  · intro w hw
    have hfollow := h.follow w hw
    rw [hx] at hfollow
    exact hg.left_of_le hne (h.infixRule_ne hrow hw) hfollow
  · exact fun w hw => hg.right_of_lt hne (hr.tighter w hw)
  · simp [OperatorTree.expr?, hrule, hop, h.expr, hr.expr]
  · rintro w hw
    cases hw
    exact hlt
  · rintro w hw
    cases hw
    exact hnext

/-- What is read with so much room at any power of a row with fewer operators is a tree of its
beginning, before a token that ends it. -/
def ReadsRow (p : Parser) (room : Nat) : Prop :=
  ∀ power s row last, p.stream.Shows s.cursor (row.tokens ++ [last]) → last.kind = .eof →
    row.Fits p.grammar → row.rest.length < room →
    Ends (p.expr room power) s
      (fun e t => (∃ tree, p.Grown power s.cursor row tree e t.cursor) ∧
        p.grammar.power (p.current t).kind ≤ power)
      fun _ _ => False

/-- A tree of a beginning of the row grows by the next operator, if that binds tightly enough. -/
theorem grown_continuation (hg : p.grammar.IsOperatorTable) (hpaired : p.grammar.IsPaired)
    (h : p.ReadsRow room) (hshow : p.stream.Shows s.cursor (row.tokens ++ [last]))
    (hlast : last.kind = .eof) (hrow : row.Fits p.grammar) (hroom : row.rest.length ≤ room)
    (hgrown : p.Grown power s.cursor row tree e t.cursor)
    (hlt : power < p.grammar.power (p.current t).kind) :
    Ends (p.continuation (p.expr room) power e) t
      (fun e t => ∃ tree, p.Grown power s.cursor row tree e t.cursor) fun _ _ => False := by
  obtain ⟨todo, htodo, hshow⟩ := hgrown.shows_rest hshow
  cases todo with
  | nil =>
    have hcur : p.current t = last := hshow.1
    rw [hcur, hlast, hpaired.power_eq_default hg.infixRule?_eof] at hlt
    exact (Power.not_lt_default _ hlt).elim
  | cons x todo =>
    have hmem : ∀ y ∈ x :: todo, y ∈ row.rest := fun y hy => by
      rw [← htodo]
      exact List.mem_append_right _ hy
    have hne := hrow.operator x (hmem x (.head _))
    obtain ⟨rule, hrule⟩ := Option.ne_none_iff_exists'.mp hne
    obtain ⟨operator, hop⟩ := Option.ne_none_iff_exists'.mp (hg.operator _ hne)
    have hk : x.1.kind ≠ .eof := by
      intro hk
      rw [hk, hg.infixRule?_eof] at hrule
      cases hrule
    obtain ⟨hcur, hadv, hright⟩ := read_of_shows hshow hk
    have hfits : OperandRow.Fits ⟨x.2, todo⟩ p.grammar :=
      ⟨hrow.operand x (hmem x (.head _)), fun y hy => hrow.operator y (hmem y (.tail _ hy)),
        fun y hy => hrow.operand y (hmem y (.tail _ hy))⟩
    have hlength : todo.length < room := by
      rw [← htodo] at hroom
      simp only [List.length_append, List.length_cons] at hroom
      omega
    rw [hcur] at hlt
    simp only [ends_continuation, hcur, hrule, ends_operator (hg.rightPower?_eq hrule), ends_settle,
      operatorOf, hop]
    refine (h _ (noted (.continues x.1 power) (p.advanced t)) ⟨x.2, todo⟩ last hright hlast hfits
      hlength).imp_good ?_
    rintro right v ⟨⟨rtree, hr⟩, hnext⟩
    rw [cursor_noted, hadv] at hr
    exact ⟨_, hgrown.operation hg hrow htodo hcur hlt hrule hop hr hnext⟩

/-- What is read of a row is a tree of its beginning. -/
theorem readsRow (hg : p.grammar.IsOperatorTable) (hpaired : p.grammar.IsPaired) (room : Nat) :
    p.ReadsRow room := by
  induction room with
  | zero => exact fun _ _ _ _ _ _ _ hroom => absurd hroom (Nat.not_lt_zero _)
  | succ room ih =>
    intro power s row last hshow hlast hrow hroom
    rw [ends_expr_succ, ends_phrase]
    refine (grown_beginning (s := { s with depth := s.depth + 1 }) hg hshow hrow.first).imp_good
      fun left t hleft => ?_
    refine ends_climb (forward_expr p room)
      (fun e t (hgrown : ∃ tree, p.Grown power s.cursor row tree e t.cursor) hlt => ?_)
      (fun e t hgrown hlt => ?_) hleft
    · exact ⟨hgrown, Power.not_lt.mp hlt⟩
    · obtain ⟨tree, hgrown⟩ := hgrown
      exact grown_continuation hg hpaired ih hshow hlast hrow (Nat.le_of_lt_succ hroom) hgrown hlt

/-- A whole row is read as one tree over it. -/
theorem ends_whole_row (hg : p.grammar.IsOperatorTable) (hpaired : p.grammar.IsPaired)
    (hstream : p.stream.tokens = row.tokens ++ [last]) (hlast : last.kind = .eof)
    (hrow : row.Fits p.grammar) (hdepth : row.rest.length < p.maxDepth) :
    Ends p.whole .start
      (fun e _ => ∃ tree : OperatorTree, tree.row = row ∧ tree.Respects p.grammar ∧
        tree.expr? p.grammar = some e)
      fun _ _ => False := by
  have hshow : p.stream.Shows 0 (row.tokens ++ [last]) :=
    Stream.shows_of_isPrefix (hstream ▸ List.prefix_rfl)
  rw [ends_whole]
  refine (readsRow hg hpaired p.maxDepth .default .start row last hshow hlast hrow
    hdepth).imp_good ?_
  rintro e t ⟨⟨tree, hgrown⟩, hnext⟩
  obtain ⟨todo, htodo, hshow⟩ := hgrown.shows_rest hshow
  cases todo with
  | nil =>
    have hcur : p.current t = last := hshow.1
    rw [hcur, if_pos hlast]
    exact ⟨tree, OperandRow.ext hgrown.first (by simpa using htodo), hgrown.respects, hgrown.expr⟩
  | cons x todo =>
    have hcur : p.current t = x.1 := hshow.1
    have hne := hrow.operator x (by rw [← htodo]; simp)
    rw [hcur] at hnext
    exact absurd (Power.rank_injective (Nat.le_zero.mp hnext)) (hg.power_ne _ hne)

end Parser

theorem OperandRow.Fits.isProper {g : Grammar} {row : OperandRow} (hg : g.IsOperatorTable)
    (h : row.Fits g) : ∀ t ∈ row.tokens, t.IsProper := by
  have hoperand : ∀ t : Token, t.IsOperand → t.IsProper := by
    rintro t (⟨hk, -⟩ | hk) <;> simp [Token.IsProper, hk]
  intro t ht
  simp only [tokens, List.mem_cons, List.mem_flatMap, List.not_mem_nil, or_false] at ht
  rcases ht with rfl | ⟨x, hx, rfl | rfl⟩
  · exact hoperand _ h.first
  · have hop := hg.operator _ (h.operator x hx)
    constructor <;> intro hk <;> rw [hk] at hop <;> exact hop rfl
  · exact hoperand _ (h.operand x hx)

/-- A row without a mark of the end is closed by one. -/
theorem Stream.exists_tokens_ofList {ts : List Token} (h : ∀ t ∈ ts, t.kind ≠ .eof) :
    ∃ last : Token, last.kind = .eof ∧ (ofList ts).tokens = ts ++ [last] := by
  refine ⟨(ofList ts).last, (ofList ts).last_kind, ?_⟩
  rcases List.eq_nil_or_concat ts with rfl | ⟨us, u, rfl⟩
  · rfl
  · have hu : u.kind ≠ .eof := h u (by simp)
    simp [ofList, tokens, hu]

section

variable {g : Grammar} {row : OperandRow} {tokens : List Token} {maxDepth : Nat}

/-- By a table of operators a row of operands and operators has one tree that respects the table,
and that is how it is parsed. -/
theorem parseTokens_operandRow (hreg : g.IsRegistered) (hg : g.IsOperatorTable) (hrow : row.Fits g)
    (htokens : tokens = row.tokens ∨
      ∃ last : Token, last.kind = .eof ∧ tokens = row.tokens ++ [last])
    (hdepth : row.rest.length + 1 ≤ maxDepth) :
    ∃ tree e, (tree.inOrder = row.tokens ∧ tree.Respects g) ∧
      (∀ tree' : OperatorTree, tree'.inOrder = row.tokens → tree'.Respects g → tree' = tree) ∧
      tree.expr? g = some e ∧ parseTokens g maxDepth tokens = .ok e := by
  have hproper := hrow.isProper hg
  obtain ⟨last, hlast, hstream⟩ : ∃ last : Token, last.kind = .eof ∧
      (Stream.ofList tokens).tokens = row.tokens ++ [last] := by
    rcases htokens with rfl | ⟨last, hlast, rfl⟩
    · exact Stream.exists_tokens_ofList fun t ht => (hproper t ht).1
    · exact ⟨last, hlast, by rw [Stream.ofList_concat hlast]; rfl⟩
  have herror : ∀ t ∈ tokens, t.kind ≠ .error := by
    rcases htokens with rfl | ⟨last, hlast, rfl⟩
    · exact fun t ht => (hproper t ht).2
    · exact List.forall_mem_append.mpr ⟨fun t ht => (hproper t ht).2, by simp [hlast]⟩
  obtain ⟨t, -, hend⟩ := Parser.run_of_ends (Parser.ends_whole_row
    (p := ⟨g, .ofList tokens, maxDepth⟩) hg hreg.isPaired hstream hlast hrow hdepth)
  rw [parseTokens, runTokens_eq_run herror]
  cases hresult : (Parser.run ⟨g, .ofList tokens, maxDepth⟩).result with
  | error fault =>
    rw [hresult] at hend
    exact hend.elim
  | ok e =>
    rw [hresult] at hend
    obtain ⟨tree, rfl, hrespects, hexpr⟩ := hend
    refine ⟨tree, e, ⟨tree.tokens_row.symm, hrespects⟩, fun tree' horder hrespects' => ?_, hexpr,
      rfl⟩
    rw [← tree'.tokens_row] at horder
    exact (hrespects.eq_of_row hg hrespects' hrow.operator
      (OperandRow.tokens_injective horder).symm).symm

/-- Division and juxtaposition bind least and group to the left, powers more tightly, and sums
most; these two group to the right. -/
def sumsFirst : Grammar :=
  Grammar.empty.registerAll
    [.begins .number .operand, .begins .identifier .operand,
      .continues .slash .equality .leftAssociative, .continues .star .equality .juxtaposition,
      .continues .caret .additive .rightAssociative, .continues .plus .call .rightAssociative,
      .continues .dash .call .rightAssociative]

theorem isOperatorTable_sumsFirst : sumsFirst.IsOperatorTable where
  number := rfl
  identifier := rfl
  operator kind := by cases kind <;> decide
  not_call kind := by cases kind <;> decide
  power_ne kind := by cases kind <;> decide
  grouping kind kind' := by cases kind <;> cases kind' <;> decide

/-- The row of `a / b ^ c ^ d + e - f * 2`. -/
def mixedRow : OperandRow :=
  ⟨.inLine .identifier "a" 1,
    [(.inLine .slash "/" 3, .inLine .identifier "b" 5),
      (.inLine .caret "^" 7, .inLine .identifier "c" 9),
      (.inLine .caret "^" 11, .inLine .identifier "d" 13),
      (.inLine .plus "+" 15, .inLine .identifier "e" 17),
      (.inLine .dash "-" 19, .inLine .identifier "f" 21),
      (.inLine .star "*" 23, .inLine .number "2" 25)]⟩

/-- By that table it is the product of `a / (b ^ (c ^ (d + (e - f))))` with `2`. -/
theorem parseTokens_mixedRow :
    sumsFirst.IsRegistered ∧ sumsFirst.IsOperatorTable ∧ mixedRow.Fits sumsFirst ∧
      ∃ tree e, (tree.inOrder = mixedRow.tokens ∧ tree.Respects sumsFirst) ∧
        (∀ tree' : OperatorTree, tree'.inOrder = mixedRow.tokens → tree'.Respects sumsFirst →
          tree' = tree) ∧
        tree.expr? sumsFirst = some e ∧ parseTokens sumsFirst 7 mixedRow.tokens = .ok e := by
  have hreg : sumsFirst.IsRegistered := ⟨_, rfl⟩
  have hrow : mixedRow.Fits sumsFirst := ⟨by decide, by decide, by decide⟩
  exact ⟨hreg, isOperatorTable_sumsFirst, hrow,
    parseTokens_operandRow hreg isOperatorTable_sumsFirst hrow (.inl rfl) (by decide)⟩

end

end Precedence

import Precedence.Proofs.Ends

/-!
# Trees of operators

Between what a grammar says of each operator, how tightly it binds and to which side it groups, and
the tree of a row of operands and operators stands no parser. A row begins with an operand, and
each operator is followed by one (`OperandRow`). A tree over the row has its operands at the leaves
and its operators at the nodes, in order (`OperatorTree.row`), and it respects the grammar if the
operators below each node bind as the node demands (`OperatorTree.Respects`): at least as tightly on
the side to which it groups, and more tightly on the other.

If operators of one strength all group to one side, a row has at most one such tree
(`OperatorTree.Respects.eq_of_row`): of two operators that each stood above the other one would
have to bind more tightly than itself.
-/

namespace Precedence

namespace Grammar

/-- Do operators of the kind take an equal operator on their right into their operand? -/
def GroupsRight (g : Grammar) (kind : TokenKind) : Prop :=
  g.infixRule? kind = some .rightAssociative

instance (g : Grammar) (kind : TokenKind) : Decidable (g.GroupsRight kind) :=
  inferInstanceAs (Decidable (_ = _))

/-- A table of operators: numbers and names stand for themselves, operators and nothing else
continue an expression, each more tightly than not at all, and operators that bind equally group
to the same side. -/
structure IsOperatorTable (g : Grammar) : Prop where
  number : g.prefixRule? .number = some .operand
  identifier : g.prefixRule? .identifier = some .operand
  operator : ∀ kind, g.infixRule? kind ≠ none → Operator.ofKind? kind ≠ none
  not_call : ∀ kind, g.infixRule? kind ≠ some .call
  power_ne : ∀ kind, g.infixRule? kind ≠ none → g.power kind ≠ .default
  grouping : ∀ kind kind', g.infixRule? kind ≠ none → g.infixRule? kind' ≠ none →
    g.power kind = g.power kind' → (g.GroupsRight kind ↔ g.GroupsRight kind')

end Grammar

/-- A token that is an operand by itself. -/
def Token.IsOperand (t : Token) : Prop :=
  (t.kind = .number ∧ Binary64.ofString? t.text ≠ none) ∨ t.kind = .identifier

instance (t : Token) : Decidable t.IsOperand := inferInstanceAs (Decidable (_ ∨ _))

/-- An operand, and operators each with the operand behind it. -/
@[ext]
structure OperandRow where
  first : Token
  rest : List (Token × Token)

namespace OperandRow

/-- The row, token by token. -/
def tokens (row : OperandRow) : List Token :=
  row.first :: row.rest.flatMap fun x => [x.1, x.2]

/-- A row of operands and of operators the grammar knows. -/
structure Fits (row : OperandRow) (g : Grammar) : Prop where
  first : row.first.IsOperand
  operator : ∀ x ∈ row.rest, g.infixRule? x.1.kind ≠ none
  operand : ∀ x ∈ row.rest, x.2.IsOperand

/-- Two rows with an operator between them. -/
def join (left : OperandRow) (t : Token) (right : OperandRow) : OperandRow :=
  ⟨left.first, left.rest ++ (t, right.first) :: right.rest⟩

theorem tokens_join (left : OperandRow) (t : Token) (right : OperandRow) :
    (left.join t right).tokens = left.tokens ++ t :: right.tokens := by
  simp [tokens, join]

theorem tokens_injective {row row' : OperandRow} (h : row.tokens = row'.tokens) : row = row' := by
  obtain ⟨x, rest⟩ := row
  obtain ⟨x', rest'⟩ := row'
  obtain ⟨rfl, hrest⟩ := List.cons.inj h
  suffices rest = rest' by rw [this]
  clear h
  induction rest generalizing rest' with
  | nil => cases rest' <;> first | rfl | cases hrest
  | cons y rest ih =>
    cases rest' with
    | nil => cases hrest
    | cons y' rest' =>
      simp only [List.flatMap_cons, List.cons_append, List.nil_append, List.cons.injEq] at hrest
      obtain ⟨hop, hoperand, hrest⟩ := hrest
      rw [Prod.ext hop hoperand, ih rest' hrest]

/-- Two ways to cut a row at an operator are one, or each cuts at an operator that lies in a part of
the other. -/
theorem join_eq_join {left right left' right' : OperandRow} {t t' : Token}
    (h : left.join t right = left'.join t' right') :
    (left = left' ∧ t = t' ∧ right = right') ∨
      ((t, right.first) ∈ left'.rest ∧ (t', right'.first) ∈ right.rest) ∨
      ((t', right'.first) ∈ left.rest ∧ (t, right.first) ∈ right'.rest) := by
  have hfirst := congrArg first h
  have hrest : left.rest ++ (t, right.first) :: right.rest =
      left'.rest ++ (t', right'.first) :: right'.rest := congrArg rest h
  rcases List.append_eq_append_iff.mp hrest with ⟨mid, hmid, hcons⟩ | ⟨mid, hmid, hcons⟩
  · cases mid with
    | nil =>
      simp only [List.nil_append, List.cons.injEq, Prod.mk.injEq] at hcons
      obtain ⟨⟨ht, hr⟩, hright⟩ := hcons
      exact .inl ⟨OperandRow.ext hfirst (by simpa using hmid.symm), ht, OperandRow.ext hr hright⟩
    | cons x mid =>
      obtain ⟨rfl, hright⟩ := List.cons.inj hcons
      exact .inr (.inl ⟨by simp [hmid], by simp [hright]⟩)
  · cases mid with
    | nil =>
      simp only [List.nil_append, List.cons.injEq, Prod.mk.injEq] at hcons
      obtain ⟨⟨ht, hr⟩, hright⟩ := hcons
      exact .inl ⟨OperandRow.ext hfirst (by simpa using hmid), ht.symm,
        OperandRow.ext hr.symm hright.symm⟩
    | cons x mid =>
      obtain ⟨rfl, hright⟩ := List.cons.inj hcons
      exact .inr (.inr ⟨by simp [hmid], by simp [hright]⟩)

end OperandRow

inductive OperatorTree where
  | operand (t : Token)
  | operation (left : OperatorTree) (t : Token) (right : OperatorTree)

namespace OperatorTree

/-- The tokens of a tree from left to right. -/
def inOrder : OperatorTree → List Token
  | operand t => [t]
  | operation left t right => left.inOrder ++ t :: right.inOrder

/-- The same as a row. -/
def row : OperatorTree → OperandRow
  | operand t => ⟨t, []⟩
  | operation left t right => left.row.join t right.row

theorem tokens_row (tree : OperatorTree) : tree.row.tokens = tree.inOrder := by
  induction tree with
  | operand t => rfl
  | operation left t right hl hr => rw [row, OperandRow.tokens_join, hl, hr, inOrder]

/-- The operator at the root, if the tree is no leaf. -/
def root? : OperatorTree → Option Token
  | operand _ => none
  | operation _ t _ => some t

theorem mem_row_of_root {tree : OperatorTree} {u : Token} (h : tree.root? = some u) :
    ∃ y, (u, y) ∈ tree.row.rest := by
  cases tree with
  | operand t => cases h
  | operation left t right =>
    cases h
    exact ⟨right.row.first, by simp [row, OperandRow.join]⟩

/-- What stands on each side of an operator binds at least as tightly as the operator on the side
to which it groups, and more tightly on the other. -/
def Respects (g : Grammar) : OperatorTree → Prop
  | operand _ => True
  | operation left t right =>
      left.Respects g ∧ right.Respects g ∧
        (∀ u, left.root? = some u →
          if g.GroupsRight t.kind then g.power t.kind < g.power u.kind
          else g.power t.kind ≤ g.power u.kind) ∧
        ∀ u, right.root? = some u →
          if g.GroupsRight t.kind then g.power t.kind ≤ g.power u.kind
          else g.power t.kind < g.power u.kind

/-- The expression a tree stands for by the rules of a grammar. -/
def expr? (g : Grammar) : OperatorTree → Option Expr
  | operand t =>
    match t.kind with
    | .number => (Binary64.ofString? t.text).map fun value => .number value t.start
    | .identifier => some (.identifier t.text t.start)
    | _ => none
  | operation left t right => do
    let rule ← g.infixRule? t.kind
    let operator ← Operator.ofKind? t.kind
    let l ← left.expr? g
    let r ← right.expr? g
    some (rule.node operator l r t.start)

/-! ## A row has one tree -/

variable {g : Grammar} {tree left right : OperatorTree} {t u : Token}

theorem Respects.le_left (h : (operation left t right).Respects g) (hu : left.root? = some u) :
    g.power t.kind ≤ g.power u.kind := by
  have := h.2.2.1 u hu
  split at this
  · exact Nat.le_of_lt this
  · exact this

theorem Respects.le_right (h : (operation left t right).Respects g) (hu : right.root? = some u) :
    g.power t.kind ≤ g.power u.kind := by
  have := h.2.2.2 u hu
  split at this
  · exact this
  · exact Nat.le_of_lt this

/-- No operator of a tree binds less tightly than its root. -/
theorem Respects.root_le (h : tree.Respects g) {x : Token × Token} (hx : x ∈ tree.row.rest) :
    ∃ u, tree.root? = some u ∧ g.power u.kind ≤ g.power x.1.kind := by
  induction tree with
  | operand t => cases hx
  | operation left t right ihl ihr =>
    refine ⟨t, rfl, ?_⟩
    simp only [row, OperandRow.join, List.mem_append, List.mem_cons] at hx
    rcases hx with hx | rfl | hx
    · obtain ⟨u, hu, hle⟩ := ihl h.1 hx
      exact Nat.le_trans (h.le_left hu) hle
    · exact Nat.le_refl _
    · obtain ⟨u, hu, hle⟩ := ihr h.2.1 hx
      exact Nat.le_trans (h.le_right hu) hle

/-- Of two operators of a row that may each stand above the other, one would have to bind more
tightly than itself. -/
theorem Respects.not_both (hg : g.IsOperatorTable) {left' right' : OperatorTree} {t' : Token}
    {x x' : Token}
    (h : (operation left t right).Respects g) (h' : (operation left' t' right').Respects g)
    (ht : g.infixRule? t.kind ≠ none) (ht' : g.infixRule? t'.kind ≠ none)
    (hin : (t, x) ∈ left'.row.rest) (hin' : (t', x') ∈ right.row.rest) : False := by
  obtain ⟨u, hu, hut⟩ := h'.1.root_le hin
  obtain ⟨u', hu', hut'⟩ := h.2.1.root_le hin'
  have hle : g.power t'.kind ≤ g.power t.kind := Nat.le_trans (h'.le_left hu) hut
  have hle' : g.power t.kind ≤ g.power t'.kind := Nat.le_trans (h.le_right hu') hut'
  have heq : g.power t.kind = g.power t'.kind := Power.rank_injective (Nat.le_antisymm hle' hle)
  have hside := hg.grouping _ _ ht ht' heq
  have hl := h'.2.2.1 u hu
  have hr := h.2.2.2 u' hu'
  simp only [Power.lt_iff, Power.le_iff] at *
  split at hr
  · rename_i hright
    rw [if_pos (hside.mp hright)] at hl
    omega
  · omega

/-- A row has at most one tree that respects the grammar. -/
theorem Respects.eq_of_row (hg : g.IsOperatorTable) {tree' : OperatorTree} (h : tree.Respects g)
    (h' : tree'.Respects g) (hops : ∀ x ∈ tree.row.rest, g.infixRule? x.1.kind ≠ none)
    (hrow : tree.row = tree'.row) : tree = tree' := by
  induction tree generalizing tree' with
  | operand t =>
    cases tree' with
    | operand t' => rw [show t = t' from congrArg OperandRow.first hrow]
    | operation left' t' right' =>
      have hrest := congrArg OperandRow.rest hrow
      simp [row, OperandRow.join] at hrest
  | operation left t right ihl ihr =>
    cases tree' with
    | operand t' =>
      have hrest := congrArg OperandRow.rest hrow
      simp [row, OperandRow.join] at hrest
    | operation left' t' right' =>
      have hops' : ∀ x ∈ (operation left' t' right').row.rest, g.infixRule? x.1.kind ≠ none :=
        hrow ▸ hops
      simp only [row, OperandRow.join, List.mem_append, List.mem_cons] at hops hops'
      have ht := hops (t, right.row.first) (.inr (.inl rfl))
      have ht' := hops' (t', right'.row.first) (.inr (.inl rfl))
      rcases OperandRow.join_eq_join hrow with ⟨hl, rfl, hr⟩ | ⟨hin, hin'⟩ | ⟨hin, hin'⟩
      · rw [ihl h.1 h'.1 (fun x hx => hops x (.inl hx)) hl,
          ihr h.2.1 h'.2.1 (fun x hx => hops x (.inr (.inr hx))) hr]
      · exact (h.not_both hg h' ht ht' hin hin').elim
      · exact (h'.not_both hg h ht' ht hin hin').elim

end OperatorTree

end Precedence

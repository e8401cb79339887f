import Mathlib.Data.List.Forall2
import Precedence.Proofs.Whole

/-!
# How an expression is spelled

Which rows of tokens an expression may have come from, whatever the grammar: each token has its
part in the expression (`Part`, `Spells`). One that begins or continues an expression makes a node;
the others open or close a group, close the arguments of a call or separate them.

Read in order, an operator between its operands and a parenthesis behind its callee
(`Expr.walk`), the nodes of an expression are made by the tokens that make nodes, one by one
(`Spells.makes`). Since the parts of a row are known by their places, this is a correspondence
between the nodes and certain places of the row (`nodePlaces`), which lie in order.
-/

namespace Precedence

/-- What a token does in the text of an expression. -/
inductive Part where
  /-- It is a number, a name or a sign in front of an operand. -/
  | beginning
  /-- It is an operator between two operands or opens the arguments of a call. -/
  | continuing
  /-- It opens a group. -/
  | opening
  /-- It closes a group or the arguments of a call. -/
  | closing
  /-- It stands between two arguments. -/
  | separating
deriving DecidableEq, Repr

namespace Part

/-- Tokens that begin or continue an expression make a node each. -/
def isNode : Part → Bool
  | beginning | continuing => true
  | opening | closing | separating => false

/-- What a rule is applied to: the token, and whether it begins an expression. -/
def entry? : Token × Part → Option (Token × Bool)
  | (t, beginning) | (t, opening) => some (t, true)
  | (t, continuing) => some (t, false)
  | (_, closing) | (_, separating) => none

end Part

/-- The token a rule was applied to, and whether it began an expression. -/
def Dispatch.entry : Dispatch → Token × Bool
  | .begins t _ => (t, true)
  | .continues t _ => (t, false)

mutual

/-- The tokens, each with its part, are the text of the expression. -/
inductive Spells (g : Grammar) : List (Token × Part) → Expr → Prop
  | number {t : Token} {value} (hrule : g.prefixRule? t.kind = some .operand)
      (hk : t.kind = .number) (hv : Binary64.ofString? t.text = some value) :
      Spells g [(t, .beginning)] (.number value t.start)
  | identifier {t : Token} (hrule : g.prefixRule? t.kind = some .operand)
      (hk : t.kind = .identifier) : Spells g [(t, .beginning)] (.identifier t.text t.start)
  | signed {t : Token} {ts operator e} (hrule : g.prefixRule? t.kind = some .sign)
      (hop : Operator.ofKind? t.kind = some operator) (he : Spells g ts e) :
      Spells g ((t, .beginning) :: ts) (.unary operator e t.start)
  | group {t u : Token} {ts e} (hrule : g.prefixRule? t.kind = some .group) (he : Spells g ts e)
      (hu : u.kind = .closeParen) : Spells g ((t, .opening) :: (ts ++ [(u, .closing)])) e
  | binary {t : Token} {ts us operator left right}
      (hrule : g.infixRule? t.kind = some .leftAssociative ∨
        g.infixRule? t.kind = some .rightAssociative)
      (hop : Operator.ofKind? t.kind = some operator) (hl : Spells g ts left)
      (hr : Spells g us right) :
      Spells g (ts ++ (t, .continuing) :: us) (.binary operator left right t.start)
  | juxtaposed {t : Token} {ts us operator left right}
      (hrule : g.infixRule? t.kind = some .juxtaposition)
      (hop : Operator.ofKind? t.kind = some operator) (hl : Spells g ts left)
      (hr : Spells g us right) :
      Spells g (ts ++ (t, .continuing) :: us) (.juxtaposed operator left right)
  | emptyCall {t u : Token} {ts f} (hrule : g.infixRule? t.kind = some .call)
      (hf : Spells g ts f) (hname : f.isIdentifier = true) (hu : u.kind = .closeParen) :
      Spells g (ts ++ [(t, .continuing), (u, .closing)]) (.call f [] t.start)
  | call {t u : Token} {ts us f es} (hrule : g.infixRule? t.kind = some .call)
      (hf : Spells g ts f) (hname : f.isIdentifier = true) (hes : SpellsArguments g us es)
      (hu : u.kind = .closeParen) :
      Spells g (ts ++ (t, .continuing) :: (us ++ [(u, .closing)])) (.call f es t.start)

/-- The tokens are the text of one argument or more. -/
inductive SpellsArguments (g : Grammar) : List (Token × Part) → List Expr → Prop
  | last {ts e} (he : Spells g ts e) : SpellsArguments g ts [e]
  | cons {t : Token} {ts us e es} (he : Spells g ts e) (hk : t.kind = .comma)
      (hes : SpellsArguments g us es) :
      SpellsArguments g (ts ++ (t, .separating) :: us) (e :: es)

end

/-! ## Nodes in order -/

namespace Expr

mutual

/-- The nodes of an expression in the order of their tokens: operators between their operands,
calls between callee and arguments. -/
def walk : Expr → List Expr
  | e@empty | e@(number _ _) | e@(identifier _ _) => [e]
  | e@(unary _ operand _) => e :: operand.walk
  | e@(binary _ left right _) => left.walk ++ e :: right.walk
  | e@(juxtaposed _ left right) => left.walk ++ e :: right.walk
  | e@(call callee arguments _) => callee.walk ++ e :: walkAll arguments

def walkAll : List Expr → List Expr
  | [] => []
  | e :: rest => e.walk ++ walkAll rest

end

mutual

theorem length_walk : ∀ e : Expr, e.walk.length = e.count
  | empty | number _ _ | identifier _ _ => rfl
  | unary _ operand _ => by
      simp only [walk, count, List.length_cons, operand.length_walk]
      omega
  | binary _ left right _ | juxtaposed _ left right => by
      simp only [walk, count, List.length_append, List.length_cons, left.length_walk,
        right.length_walk]
      omega
  | call callee arguments _ => by
      simp only [walk, count, List.length_append, List.length_cons, callee.length_walk,
        length_walkAll arguments]
      omega

theorem length_walkAll : ∀ es : List Expr, (walkAll es).length = countAll es
  | [] => rfl
  | e :: rest => by
      simp only [walkAll, countAll, List.length_append, e.length_walk, length_walkAll rest]

end

end Expr

/-- The token is the one the node was made of. -/
def Token.Makes (t : Token) : Expr → Prop
  | .empty => False
  | .number value position =>
      t.kind = .number ∧ Binary64.ofString? t.text = some value ∧ position = t.start
  | .identifier name position => t.kind = .identifier ∧ name = t.text ∧ position = t.start
  | .unary operator _ position => Operator.ofKind? t.kind = some operator ∧ position = t.start
  | .binary operator _ _ position => Operator.ofKind? t.kind = some operator ∧ position = t.start
  | .juxtaposed operator _ _ => Operator.ofKind? t.kind = some operator
  | .call _ _ position => position = t.start

def nodeTokens (ts : List (Token × Part)) : List Token :=
  (ts.filter (·.2.isNode)).map Prod.fst

theorem nodeTokens_append (ts us : List (Token × Part)) :
    nodeTokens (ts ++ us) = nodeTokens ts ++ nodeTokens us := by
  simp [nodeTokens]

theorem nodeTokens_cons (t : Token) (part : Part) (ts : List (Token × Part)) :
    nodeTokens ((t, part) :: ts) = if part.isNode then t :: nodeTokens ts else nodeTokens ts := by
  cases part <;> rfl

mutual

/-- The nodes of an expression are made by the tokens that make nodes, in order. -/
theorem Spells.makes {g : Grammar} : ∀ {ts e}, Spells g ts e →
    List.Forall₂ Token.Makes (nodeTokens ts) e.walk
  | _, _, .number _ hk hv => .cons ⟨hk, hv, rfl⟩ .nil
  | _, _, .identifier _ hk => .cons ⟨hk, rfl, rfl⟩ .nil
  | _, _, .signed _ hop he => .cons ⟨hop, rfl⟩ he.makes
  | _, _, .group _ he _ => by
      simpa [nodeTokens, Part.isNode] using he.makes
  | _, _, .binary _ hop hl hr => by
      rw [nodeTokens_append]
      exact List.rel_append hl.makes (.cons ⟨hop, rfl⟩ hr.makes)
  | _, _, .juxtaposed _ hop hl hr => by
      rw [nodeTokens_append]
      exact List.rel_append hl.makes (.cons hop hr.makes)
  | _, _, .emptyCall _ hf _ _ => by
      rw [nodeTokens_append]
      exact List.rel_append hf.makes (.cons rfl .nil)
  | _, _, .call _ hf _ hes _ => by
      rw [nodeTokens_append, nodeTokens_cons, nodeTokens_append]
      refine List.rel_append hf.makes (.cons rfl ?_)
      simpa [nodeTokens, Part.isNode] using hes.makes

theorem SpellsArguments.makes {g : Grammar} : ∀ {ts es}, SpellsArguments g ts es →
    List.Forall₂ Token.Makes (nodeTokens ts) (Expr.walkAll es)
  | _, _, .last he => by
      simpa [Expr.walkAll] using he.makes
  | _, _, .cons he _ hes => by
      rw [nodeTokens_append]
      exact List.rel_append he.makes hes.makes

end

/-! ## The parts that the rules give -/

/-- A token that makes no node has its part by the rules, or by its kind. -/
def Part.Fits (g : Grammar) : Token × Part → Prop
  | (t, opening) => g.prefixRule? t.kind = some .group
  | (t, closing) => t.kind = .closeParen
  | (t, separating) => t.kind = .comma
  | (_, beginning) | (_, continuing) => True

/-- A token that makes a node does so by a rule, which is not that of a group. -/
def Part.Ruled (g : Grammar) : Token × Part → Prop
  | (t, beginning) => (g.prefixRule? t.kind).isSome ∧ g.prefixRule? t.kind ≠ some .group
  | (t, continuing) => (g.infixRule? t.kind).isSome
  | (_, opening) | (_, closing) | (_, separating) => True

mutual

/-- The tokens of an expression have their parts by the rules, or by their kinds. -/
theorem Spells.parts {g : Grammar} : ∀ {ts e}, Spells g ts e →
    ∀ x ∈ ts, Part.Fits g x ∧ Part.Ruled g x
  | _, _, .number hrule _ _ | _, _, .identifier hrule _ =>
      List.forall_mem_singleton.mpr ⟨trivial, Option.isSome_of_eq_some hrule, hrule ▸ nofun⟩
  | _, _, .signed hrule _ he =>
      List.forall_mem_cons.mpr
        ⟨⟨trivial, Option.isSome_of_eq_some hrule, hrule ▸ nofun⟩, he.parts⟩
  | _, _, .group hrule he hu =>
      List.forall_mem_cons.mpr ⟨⟨hrule, trivial⟩,
        List.forall_mem_append.mpr ⟨he.parts, List.forall_mem_singleton.mpr ⟨hu, trivial⟩⟩⟩
  | _, _, .binary hrule _ hl hr =>
      List.forall_mem_append.mpr ⟨hl.parts,
        List.forall_mem_cons.mpr
          ⟨⟨trivial, hrule.elim Option.isSome_of_eq_some Option.isSome_of_eq_some⟩, hr.parts⟩⟩
  | _, _, .juxtaposed hrule _ hl hr =>
      List.forall_mem_append.mpr ⟨hl.parts,
        List.forall_mem_cons.mpr ⟨⟨trivial, Option.isSome_of_eq_some hrule⟩, hr.parts⟩⟩
  | _, _, .emptyCall hrule hf _ hu =>
      List.forall_mem_append.mpr ⟨hf.parts,
        List.forall_mem_cons.mpr ⟨⟨trivial, Option.isSome_of_eq_some hrule⟩,
          List.forall_mem_singleton.mpr ⟨hu, trivial⟩⟩⟩
  | _, _, .call hrule hf _ hes hu =>
      List.forall_mem_append.mpr ⟨hf.parts,
        List.forall_mem_cons.mpr ⟨⟨trivial, Option.isSome_of_eq_some hrule⟩,
          List.forall_mem_append.mpr ⟨hes.parts, List.forall_mem_singleton.mpr ⟨hu, trivial⟩⟩⟩⟩

theorem SpellsArguments.parts {g : Grammar} : ∀ {ts es}, SpellsArguments g ts es →
    ∀ x ∈ ts, Part.Fits g x ∧ Part.Ruled g x
  | _, _, .last he => he.parts
  | _, _, .cons he hk hes =>
      List.forall_mem_append.mpr
        ⟨he.parts, List.forall_mem_cons.mpr ⟨⟨hk, trivial⟩, hes.parts⟩⟩

end

/-- A token that makes no node was dispatched to open a group, or closes or separates. -/
theorem Spells.role {g : Grammar} {ts : List (Token × Part)} {e : Expr} {t : Token} {part : Part}
    {dispatches : List Dispatch} (he : Spells g ts e)
    (hentries : ts.filterMap Part.entry? = dispatches.map Dispatch.entry) (ht : (t, part) ∈ ts)
    (hpart : part.isNode = false) :
    (part = .opening ∧ g.prefixRule? t.kind = some .group ∧
        ∃ power, .begins t power ∈ dispatches) ∨
      (part = .closing ∧ t.kind = .closeParen) ∨ (part = .separating ∧ t.kind = .comma) := by
  have hfits := (he.parts _ ht).1
  cases part with
  | beginning | continuing => cases hpart
  | closing => exact .inr (.inl ⟨rfl, hfits⟩)
  | separating => exact .inr (.inr ⟨rfl, hfits⟩)
  | opening =>
    have hentry : (t, true) ∈ dispatches.map Dispatch.entry := by
      rw [← hentries]
      exact List.mem_filterMap.mpr ⟨_, ht, rfl⟩
    obtain ⟨dispatch, hd, hdentry⟩ := List.mem_map.mp hentry
    cases dispatch with
    | begins u power =>
      obtain rfl : u = t := congrArg Prod.fst hdentry
      exact .inl ⟨rfl, hfits, power, hd⟩
    | continues u power => cases congrArg Prod.snd hdentry

/-! ## Places -/

/-- The places of the tokens that make nodes. -/
def nodePlaces (ts : List (Token × Part)) : List Nat :=
  (ts.zipIdx.filter (·.1.2.isNode)).map Prod.snd

section Places

variable {ts : List (Token × Part)}

theorem nodePlaces_increasing : (nodePlaces ts).Pairwise (· < ·) := by
  have hsub : (nodePlaces ts).Sublist (ts.zipIdx.map Prod.snd) := List.filter_sublist.map _
  rw [List.zipIdx_map_snd] at hsub
  exact (List.pairwise_lt_range' 1).sublist hsub

theorem length_nodePlaces_le : (nodePlaces ts).length ≤ ts.length := by
  have hle := List.length_filter_le (·.1.2.isNode) ts.zipIdx
  rw [List.length_zipIdx] at hle
  rw [nodePlaces, List.length_map]
  exact hle

theorem mem_nodePlaces {i : Nat} :
    i ∈ nodePlaces ts ↔ ∃ t part, ts[i]? = some (t, part) ∧ part.isNode = true := by
  simp [nodePlaces, List.mk_mem_zipIdx_iff_getElem?]

variable {row : List Token}

theorem getElem?_of_isPrefix (h : ts.map Prod.fst <+: row) {i : Nat} {t : Token} {part : Part}
    (hi : ts[i]? = some (t, part)) : row[i]? = some t := by
  obtain ⟨rest, rfl⟩ := h
  obtain ⟨hlt, -⟩ := List.getElem?_eq_some_iff.mp hi
  rw [List.getElem?_append_left (by rw [List.length_map]; exact hlt), List.getElem?_map, hi]
  rfl

/-- What is made by the tokens that make nodes is made at their places in the row. -/
theorem forall₂_nodePlaces (hrow : ts.map Prod.fst <+: row) {es : List Expr}
    (h : List.Forall₂ Token.Makes (nodeTokens ts) es) :
    List.Forall₂ (fun i e => ∃ t, row[i]? = some t ∧ t.Makes e) (nodePlaces ts) es := by
  have htokens : nodeTokens ts = (ts.zipIdx.filter (·.1.2.isNode)).map (·.1.1) := by
    unfold nodeTokens
    conv_lhs => rw [← List.zipIdx_map_fst 0 ts, List.filter_map, List.map_map]
    rfl
  rw [htokens, List.forall₂_map_left_iff] at h
  rw [nodePlaces, List.forall₂_map_left_iff]
  have hplace : ∀ x ∈ ts.zipIdx.filter (·.1.2.isNode), ts[x.2]? = some x.1 := by
    intro x hx
    exact List.mem_zipIdx_iff_getElem?.mp (List.mem_filter.mp hx).1
  refine ((List.forall₂_and_left _ _).mpr ⟨hplace, h⟩).imp ?_
  rintro x e ⟨hx, hmakes⟩
  exact ⟨x.1.1, getElem?_of_isPrefix hrow hx, hmakes⟩

end Places

end Precedence

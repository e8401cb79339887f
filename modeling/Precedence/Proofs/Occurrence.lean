import Precedence.Proofs.Neighbours
import Precedence.Proofs.Paths

/-!
# Where a node stands in an expression

The tokens of an expression fall into those that a node of its tree is made of and those before and
behind it (`OccursIn`). The parentheses around what the node is made of are not counted as its own.

Every node but the callee of a call stands somewhere (`exists_occursIn`). In parentheses it stands
for the same, and the expression with them nests one level deeper at most
(`OccursIn.parenthesised`): a group is an atom, which may stand wherever an expression may. What the
node stands next to shows that it begins behind no operand and ends before none (`OccursIn.apart`).
-/

namespace Precedence

mutual

/-- The tokens `pre ++ (mid ++ post)` are an expression of the level and nest no deeper than so many
levels, and the node of the tree that the path leads to is made of `mid`. -/
inductive OccursIn : Nat → Level → Expr → List Edge → List Token → List Token → List Token → Prop
  | here {depth level ts e} (he : ProducesIn depth level ts e) : OccursIn depth level e [] [] ts []
  | tighter {depth level next e path pre mid post} (hnext : level.tighter? = some next)
      (h : OccursIn depth next e path pre mid post) : OccursIn depth level e path pre mid post
  | group {depth e path pre mid post} {t u : Token} (hk : t.kind = .openParen)
      (h : OccursIn depth .comparison e path pre mid post) (hu : u.kind = .closeParen) :
      OccursIn (depth + 1) .atom e path (t :: pre) mid (post ++ [u])
  | left {depth level us left right operator path pre mid post} {t : Token}
      (hk : t.kind ∈ level.operators) (hop : Operator.ofKind? t.kind = some operator)
      (h : OccursIn (depth + 1) level.leftOperand left path pre mid post)
      (hr : DerivesIn depth level.rightOperand us right) :
      OccursIn (depth + 1) level (level.node operator left right t.start) (.left :: path) pre mid
        (post ++ t :: us)
  | right {depth level ts left right operator path pre mid post} {t : Token}
      (hk : t.kind ∈ level.operators) (hop : Operator.ofKind? t.kind = some operator)
      (hl : DerivesIn (depth + 1) level.leftOperand ts left)
      (h : OccursIn depth level.rightOperand right path pre mid post) :
      OccursIn (depth + 1) level (level.node operator left right t.start) (.right :: path)
        (ts ++ t :: pre) mid post
  | operand {depth e operator path pre mid post} {t : Token} (hk : t.kind = .plus ∨ t.kind = .dash)
      (hop : Operator.ofKind? t.kind = some operator)
      (h : OccursIn depth .sign e path pre mid post) :
      OccursIn (depth + 1) .sign (.unary operator e t.start) (.operand :: path) (t :: pre) mid post
  | argument {depth ts f es i path pre mid post} {t u : Token}
      (hf : DerivesIn (depth + 1) .atom ts f) (hname : f.isIdentifier = true)
      (hk : t.kind = .openParen) (h : OccursInArguments depth es i path pre mid post)
      (hu : u.kind = .closeParen) :
      OccursIn (depth + 1) .atom (.call f es t.start) (.argument i :: path) (ts ++ t :: pre) mid
        (post ++ [u])

/-- The same of arguments: the path leads on from the one with the index. -/
inductive OccursInArguments : Nat → List Expr → Nat → List Edge → List Token → List Token →
    List Token → Prop
  | last {depth e path pre mid post} (h : OccursIn depth .comparison e path pre mid post) :
      OccursInArguments depth [e] 0 path pre mid post
  | first {depth us e es path pre mid post} {t : Token}
      (h : OccursIn depth .comparison e path pre mid post) (hk : t.kind = .comma)
      (hes : DerivesArgumentsIn depth us es) :
      OccursInArguments depth (e :: es) 0 path pre mid (post ++ t :: us)
  | later {depth ts e es i path pre mid post} {t : Token} (he : DerivesIn depth .comparison ts e)
      (hk : t.kind = .comma) (h : OccursInArguments depth es i path pre mid post) :
      OccursInArguments depth (e :: es) (i + 1) path (ts ++ t :: pre) mid post

end

variable {depth : Nat} {level : Level} {e m : Expr} {path : List Edge}
  {ts pre mid post : List Token}

/-! ## In parentheses -/

section Parentheses

variable {t u : Token}

/-- An expression in parentheses stands wherever it stands without. -/
theorem DerivesIn.parenthesised (he : DerivesIn depth level ts e) (ht : t.kind = .openParen)
    (hu : u.kind = .closeParen) : DerivesIn (depth + 1) level (t :: (ts ++ [u])) e :=
  (DerivesIn.group ht (he.loosen (Nat.zero_le _)) hu).loosen level.rank_le_atom

mutual

theorem OccursIn.parenthesised (ht : t.kind = .openParen) (hu : u.kind = .closeParen) :
    ∀ {depth level e path pre mid post}, OccursIn depth level e path pre mid post →
      DerivesIn (depth + 1) level (pre ++ t :: (mid ++ u :: post)) e
  | _, _, _, _, _, _, _, .here he => DerivesIn.parenthesised (.produced he) ht hu
  | _, _, _, _, _, _, _, .tighter hnext h => .tighter hnext (h.parenthesised ht hu)
  | _, _, _, _, _, _, _, .group hk h hclose => by
      simpa only [List.cons_append, List.append_assoc] using
        DerivesIn.group hk (h.parenthesised ht hu) hclose
  | _, _, _, _, _, _, _, .left hk hop h hr => by
      simpa only [List.cons_append, List.append_assoc] using
        DerivesIn.produced (.operation hk hop (h.parenthesised ht hu) (hr.mono (Nat.le_succ _)))
  | _, _, _, _, _, _, _, .right hk hop hl h => by
      simpa only [List.cons_append, List.append_assoc] using
        DerivesIn.produced (.operation hk hop (hl.mono (Nat.le_succ _)) (h.parenthesised ht hu))
  | _, _, _, _, _, _, _, .operand hk hop h => .produced (.signed hk hop (h.parenthesised ht hu))
  | _, _, _, _, _, _, _, .argument hf hname hk h hclose => by
      simpa only [List.cons_append, List.append_assoc] using
        DerivesIn.produced (.call (hf.mono (Nat.le_succ _)) hname hk (h.parenthesised ht hu) hclose)

theorem OccursInArguments.parenthesised (ht : t.kind = .openParen) (hu : u.kind = .closeParen) :
    ∀ {depth es i path pre mid post}, OccursInArguments depth es i path pre mid post →
      DerivesArgumentsIn (depth + 1) (pre ++ t :: (mid ++ u :: post)) es
  | _, _, _, _, _, _, _, .last h => .last (h.parenthesised ht hu)
  | _, _, _, _, _, _, _, .first h hk hes => by
      simpa only [List.cons_append, List.append_assoc] using
        DerivesArgumentsIn.cons (h.parenthesised ht hu) hk (hes.mono (Nat.le_succ _))
  | _, _, _, _, _, _, _, .later he hk h => by
      simpa only [List.cons_append, List.append_assoc] using
        DerivesArgumentsIn.cons (he.mono (Nat.le_succ _)) hk (h.parenthesised ht hu)

end

end Parentheses

/-! ## What stands next to a node -/

/-- No operand ends right before, and none begins right behind. -/
structure StandsApart (pre post : List Token) : Prop where
  left : ∀ t ∈ pre.getLast?, ¬ t.EndsOperand
  right : ∀ u ∈ post.head?, u.kind ≠ .identifier ∧ u.kind ≠ .number ∧ u.kind ≠ .openParen

section Neighbours

variable {t u : Token}

theorem StandsApart.append_left (h : StandsApart pre post) (ts : List Token)
    (ht : ¬ t.EndsOperand) : StandsApart (ts ++ t :: pre) post where
  left := by
    rw [List.getLast?_append, List.getLast?_cons, Option.some_or]
    rintro _ ⟨⟩
    cases hlast : pre.getLast? with
    | none => exact ht
    | some v => exact h.left v hlast
  right := h.right

theorem StandsApart.append_right (h : StandsApart pre post) (us : List Token)
    (hu : u.kind ≠ .identifier ∧ u.kind ≠ .number ∧ u.kind ≠ .openParen) :
    StandsApart pre (post ++ u :: us) where
  left := h.left
  right := by
    cases post with
    | nil =>
      rintro _ ⟨⟩
      exact hu
    | cons v post => exact h.right

theorem Token.not_endsOperand (h : t.kind = .plus ∨ t.kind = .dash ∨ t.kind = .openParen) :
    ¬ t.EndsOperand := by
  rcases h with h | h | h <;> simp [EndsOperand, h]

theorem Token.keepsApart_of_comma (h : t.kind = .comma) : t.KeepsApart := by
  constructor <;> simp [EndsOperand, h]

mutual

/-- What a node is made of is neither behind an operand nor before one. -/
theorem OccursIn.apart : ∀ {depth level e path pre mid post},
    OccursIn depth level e path pre mid post → StandsApart pre post
  | _, _, _, _, _, _, _, .here _ => ⟨nofun, nofun⟩
  | _, _, _, _, _, _, _, .tighter _ h => h.apart
  | _, _, _, _, _, _, _, .group hk h hclose =>
      (h.apart.append_left [] (Token.not_endsOperand (.inr (.inr hk)))).append_right []
        (by simp [hclose])
  | _, _, _, _, _, _, _, .left hk _ h _ =>
      h.apart.append_right _ (Token.keepsApart_of_mem_operators hk).right
  | _, _, _, _, _, _, _, .right hk _ _ h =>
      h.apart.append_left _ (Token.keepsApart_of_mem_operators hk).left
  | _, _, _, _, _, _, _, .operand hk _ h =>
      h.apart.append_left [] (Token.not_endsOperand (hk.imp_right .inl))
  | _, _, _, _, _, _, _, .argument _ _ hk h hclose =>
      (h.apart.append_left _ (Token.not_endsOperand (.inr (.inr hk)))).append_right []
        (by simp [hclose])

theorem OccursInArguments.apart : ∀ {depth es i path pre mid post},
    OccursInArguments depth es i path pre mid post → StandsApart pre post
  | _, _, _, _, _, _, _, .last h => h.apart
  | _, _, _, _, _, _, _, .first h hk _ =>
      h.apart.append_right _ (Token.keepsApart_of_comma hk).right
  | _, _, _, _, _, _, _, .later _ hk h =>
      h.apart.append_left _ (Token.keepsApart_of_comma hk).left

end

end Neighbours

/-! ## Every node but a callee -/

theorem Level.child?_node_left {operator : Operator} {left right : Expr} {position : Position} :
    (level.node operator left right position).child? .left = some left := by
  cases level <;> rfl

theorem Level.child?_node_right {operator : Operator} {left right : Expr} {position : Position} :
    (level.node operator left right position).child? .right = some right := by
  cases level <;> rfl

theorem Level.child?_node_cases {operator : Operator} {left right c : Expr} {position : Position}
    {edge : Edge} (h : (level.node operator left right position).child? edge = some c) :
    (edge = .left ∧ left = c) ∨ (edge = .right ∧ right = c) := by
  cases level <;> cases edge <;> cases h <;> simp

mutual

/-- What a node is made of is what makes it. -/
theorem OccursIn.exists_produces : ∀ {depth level e path pre mid post},
    OccursIn depth level e path pre mid post →
      ∃ m depth level, e.descend path = some m ∧ ProducesIn depth level mid m
  | _, _, _, _, _, _, _, .here he => ⟨_, _, _, Expr.descend_nil, he⟩
  | _, _, _, _, _, _, _, .tighter _ h => h.exists_produces
  | _, _, _, _, _, _, _, .group _ h _ => h.exists_produces
  | _, _, _, _, _, _, _, .left _ _ h _ => by
      rw [Expr.descend_of_child? Level.child?_node_left]
      exact h.exists_produces
  | _, _, _, _, _, _, _, .right _ _ _ h => by
      rw [Expr.descend_of_child? Level.child?_node_right]
      exact h.exists_produces
  | _, _, _, _, _, _, _, .operand _ _ h => h.exists_produces
  | _, _, _, _, _, _, _, .argument _ _ _ h _ => by
      obtain ⟨c, hc, hm⟩ := h.exists_produces
      rw [Expr.descend_cons, Expr.child?, hc]
      exact hm

theorem OccursInArguments.exists_produces : ∀ {depth es i path pre mid post},
    OccursInArguments depth es i path pre mid post →
      ∃ c, es[i]? = some c ∧
        ∃ m depth level, c.descend path = some m ∧ ProducesIn depth level mid m
  | _, _, _, _, _, _, _, .last h => ⟨_, rfl, h.exists_produces⟩
  | _, _, _, _, _, _, _, .first h _ _ => ⟨_, rfl, h.exists_produces⟩
  | _, _, _, _, _, _, _, .later _ _ h => h.exists_produces

end

theorem getLast?_ne_of_cons {edge : Edge} (h : (edge :: path).getLast? ≠ some .callee) :
    path.getLast? ≠ some .callee := fun hlast => h (List.mem_getLast?_cons hlast)

/-- There is nothing below a callee, which is a name. -/
theorem getLast?_callee {f : Expr} (hname : f.isIdentifier = true) (hm : f.descend path = some m) :
    (.callee :: path).getLast? = some Edge.callee := by
  cases path with
  | nil => rfl
  | cons edge path =>
    obtain ⟨c, hc, -⟩ := Expr.exists_child?_of_descend hm
    cases f with
    | identifier => cases edge <;> cases hc
    | _ => cases hname

mutual

theorem ProducesIn.exists_occursIn : ∀ {depth level ts e}, ProducesIn depth level ts e →
    ∀ {path m}, e.descend path = some m → path.getLast? ≠ some .callee →
      ∃ pre mid post, ts = pre ++ (mid ++ post) ∧ OccursIn depth level e path pre mid post
  | _, _, ts, _, he, [], _, _, _ => ⟨[], ts, [], by simp, .here he⟩
  | _, _, _, _, .operation hk hop hl hr, _ :: _, _, hdescend, hlast => by
      obtain ⟨c, hc, hm⟩ := Expr.exists_child?_of_descend hdescend
      have hbelow := getLast?_ne_of_cons hlast
      rcases Level.child?_node_cases hc with ⟨rfl, rfl⟩ | ⟨rfl, rfl⟩
      · obtain ⟨pre, mid, post, rfl, h⟩ := hl.exists_occursIn hm hbelow
        exact ⟨pre, mid, _, by simp, .left hk hop h hr⟩
      · obtain ⟨pre, mid, post, rfl, h⟩ := hr.exists_occursIn hm hbelow
        exact ⟨_, mid, post, by simp, .right hk hop hl h⟩
  | _, _, _, _, .signed hk hop he, edge :: _, _, hdescend, hlast => by
      obtain ⟨c, hc, hm⟩ := Expr.exists_child?_of_descend hdescend
      cases edge <;> cases hc
      obtain ⟨pre, mid, post, rfl, h⟩ := he.exists_occursIn hm (getLast?_ne_of_cons hlast)
      exact ⟨_, mid, post, rfl, .operand hk hop h⟩
  | _, _, _, _, .number _ _, edge :: _, _, hdescend, _ => by
      obtain ⟨c, hc, -⟩ := Expr.exists_child?_of_descend hdescend
      cases edge <;> cases hc
  | _, _, _, _, .identifier _, edge :: _, _, hdescend, _ => by
      obtain ⟨c, hc, -⟩ := Expr.exists_child?_of_descend hdescend
      cases edge <;> cases hc
  | _, _, _, _, .emptyCall hf hname hk hu, edge :: path, _, hdescend, hlast => by
      obtain ⟨c, hc, hm⟩ := Expr.exists_child?_of_descend hdescend
      cases edge with
      | callee =>
        cases hc
        exact absurd (getLast?_callee hname hm) hlast
      | argument i => cases hc
      | _ => cases hc
  | _, _, _, _, .call hf hname hk hes hu, edge :: path, _, hdescend, hlast => by
      obtain ⟨c, hc, hm⟩ := Expr.exists_child?_of_descend hdescend
      cases edge with
      | callee =>
        cases hc
        exact absurd (getLast?_callee hname hm) hlast
      | argument i =>
        obtain ⟨pre, mid, post, rfl, h⟩ := hes.exists_occursIn hc hm (getLast?_ne_of_cons hlast)
        exact ⟨_, mid, _, by simp, .argument hf hname hk h hu⟩
      | _ => cases hc

theorem DerivesIn.exists_occursIn : ∀ {depth level ts e}, DerivesIn depth level ts e →
    ∀ {path m}, e.descend path = some m → path.getLast? ≠ some .callee →
      ∃ pre mid post, ts = pre ++ (mid ++ post) ∧ OccursIn depth level e path pre mid post
  | _, _, _, _, .produced he, _, _, hm, hlast => he.exists_occursIn hm hlast
  | _, _, _, _, .tighter hnext he, _, _, hm, hlast => by
      obtain ⟨pre, mid, post, rfl, h⟩ := he.exists_occursIn hm hlast
      exact ⟨pre, mid, post, rfl, .tighter hnext h⟩
  | _, _, _, _, .group hk he hu, _, _, hm, hlast => by
      obtain ⟨pre, mid, post, rfl, h⟩ := he.exists_occursIn hm hlast
      exact ⟨_, mid, _, by simp, .group hk h hu⟩

theorem DerivesArgumentsIn.exists_occursIn : ∀ {depth ts es}, DerivesArgumentsIn depth ts es →
    ∀ {i c path m}, es[i]? = some c → c.descend path = some m → path.getLast? ≠ some .callee →
      ∃ pre mid post, ts = pre ++ (mid ++ post) ∧ OccursInArguments depth es i path pre mid post
  | _, _, _, .last he, 0, _, _, _, rfl, hm, hlast => by
      obtain ⟨pre, mid, post, rfl, h⟩ := he.exists_occursIn hm hlast
      exact ⟨pre, mid, post, rfl, .last h⟩
  | _, _, _, .cons he hk hes, 0, _, _, _, rfl, hm, hlast => by
      obtain ⟨pre, mid, post, rfl, h⟩ := he.exists_occursIn hm hlast
      exact ⟨pre, mid, _, by simp, .first h hk hes⟩
  | _, _, _, .cons he hk hes, _ + 1, _, _, _, hc, hm, hlast => by
      obtain ⟨pre, mid, post, rfl, h⟩ := hes.exists_occursIn hc hm hlast
      exact ⟨_, mid, post, by simp, .later he hk h⟩

end

end Precedence

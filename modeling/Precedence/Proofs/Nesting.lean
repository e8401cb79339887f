import Precedence.Proofs.Derivation

/-!
# How deep an expression nests

The grammar of arithmetic once more, with an account of the levels of nesting that reading an
expression takes (`DerivesIn`). The outermost level is one. What stands right of an operator, behind
a sign in front or in parentheses takes one level more than the whole; what stands left of an
operator takes none, since it is read before the operator is seen.

A production that makes the root of the tree is told apart from a group, which makes nothing
(`ProducesIn`).

No expression takes more levels than it has tokens (`Derives.derivesIn`).
-/

namespace Precedence

mutual

/-- The tokens are an expression of the level and nest no deeper than so many levels, and the last
production is that of the root of the tree. -/
inductive ProducesIn : Nat → Level → List Token → Expr → Prop
  | operation {depth level ts us left right operator} {t : Token} (hk : t.kind ∈ level.operators)
      (hop : Operator.ofKind? t.kind = some operator)
      (hl : DerivesIn (depth + 1) level.leftOperand ts left)
      (hr : DerivesIn depth level.rightOperand us right) :
      ProducesIn (depth + 1) level (ts ++ t :: us) (level.node operator left right t.start)
  | signed {depth ts e operator} {t : Token} (hk : t.kind = .plus ∨ t.kind = .dash)
      (hop : Operator.ofKind? t.kind = some operator) (he : DerivesIn depth .sign ts e) :
      ProducesIn (depth + 1) .sign (t :: ts) (.unary operator e t.start)
  | number {depth value} {t : Token} (hk : t.kind = .number)
      (hv : Binary64.ofString? t.text = some value) :
      ProducesIn (depth + 1) .atom [t] (.number value t.start)
  | identifier {depth} {t : Token} (hk : t.kind = .identifier) :
      ProducesIn (depth + 1) .atom [t] (.identifier t.text t.start)
  | emptyCall {depth ts f} {t u : Token} (hf : DerivesIn (depth + 1) .atom ts f)
      (hname : f.isIdentifier = true) (hk : t.kind = .openParen) (hu : u.kind = .closeParen) :
      ProducesIn (depth + 1) .atom (ts ++ [t, u]) (.call f [] t.start)
  | call {depth ts us f es} {t u : Token} (hf : DerivesIn (depth + 1) .atom ts f)
      (hname : f.isIdentifier = true) (hk : t.kind = .openParen)
      (hes : DerivesArgumentsIn depth us es) (hu : u.kind = .closeParen) :
      ProducesIn (depth + 1) .atom (ts ++ t :: (us ++ [u])) (.call f es t.start)

/-- The tokens are an expression of the level and nest no deeper than so many levels. -/
inductive DerivesIn : Nat → Level → List Token → Expr → Prop
  | produced {depth level ts e} (he : ProducesIn depth level ts e) : DerivesIn depth level ts e
  | tighter {depth level next ts e} (hnext : level.tighter? = some next)
      (he : DerivesIn depth next ts e) : DerivesIn depth level ts e
  | group {depth ts e} {t u : Token} (hk : t.kind = .openParen)
      (he : DerivesIn depth .comparison ts e) (hu : u.kind = .closeParen) :
      DerivesIn (depth + 1) .atom (t :: (ts ++ [u])) e

/-- The tokens are arguments that nest no deeper than so many levels. -/
inductive DerivesArgumentsIn : Nat → List Token → List Expr → Prop
  | last {depth ts e} (he : DerivesIn depth .comparison ts e) : DerivesArgumentsIn depth ts [e]
  | cons {depth ts us e es} {t : Token} (he : DerivesIn depth .comparison ts e)
      (hk : t.kind = .comma) (hes : DerivesArgumentsIn depth us es) :
      DerivesArgumentsIn depth (ts ++ t :: us) (e :: es)

end

/-! ## Without the account -/

mutual

theorem ProducesIn.derives : ∀ {depth level ts e}, ProducesIn depth level ts e →
    Derives level ts e
  | _, _, _, _, .operation hk hop hl hr => .operation hk hop hl.derives hr.derives
  | _, _, _, _, .signed hk hop he => .signed hk hop he.derives
  | _, _, _, _, .number hk hv => .number hk hv
  | _, _, _, _, .identifier hk => .identifier hk
  | _, _, _, _, .emptyCall hf hname hk hu => .emptyCall hf.derives hname hk hu
  | _, _, _, _, .call hf hname hk hes hu => .call hf.derives hname hk hes.derives hu

theorem DerivesIn.derives : ∀ {depth level ts e}, DerivesIn depth level ts e → Derives level ts e
  | _, _, _, _, .produced he => he.derives
  | _, _, _, _, .tighter hnext he => .tighter hnext he.derives
  | _, _, _, _, .group hk he hu => .group hk he.derives hu

theorem DerivesArgumentsIn.derives : ∀ {depth ts es}, DerivesArgumentsIn depth ts es →
    DerivesArguments ts es
  | _, _, _, .last he => .last he.derives
  | _, _, _, .cons he hk hes => .cons he.derives hk hes.derives

end

theorem DerivesIn.depth_pos {depth : Nat} {level : Level} {ts : List Token} {e : Expr}
    (h : DerivesIn depth level ts e) : 0 < depth := by
  match h with
  | .produced he => cases he <;> exact Nat.succ_pos _
  | .tighter _ he => exact he.depth_pos
  | .group .. => exact Nat.succ_pos _

/-! ## More levels than needed -/

mutual

theorem ProducesIn.add (more : Nat) : ∀ {depth level ts e}, ProducesIn depth level ts e →
    ProducesIn (more + depth) level ts e
  | _, _, _, _, .operation hk hop hl hr => .operation hk hop (hl.add more) (hr.add more)
  | _, _, _, _, .signed hk hop he => .signed hk hop (he.add more)
  | _, _, _, _, .number hk hv => .number hk hv
  | _, _, _, _, .identifier hk => .identifier hk
  | _, _, _, _, .emptyCall hf hname hk hu => .emptyCall (hf.add more) hname hk hu
  | _, _, _, _, .call hf hname hk hes hu => .call (hf.add more) hname hk (hes.add more) hu

theorem DerivesIn.add (more : Nat) : ∀ {depth level ts e}, DerivesIn depth level ts e →
    DerivesIn (more + depth) level ts e
  | _, _, _, _, .produced he => .produced (he.add more)
  | _, _, _, _, .tighter hnext he => .tighter hnext (he.add more)
  | _, _, _, _, .group hk he hu => .group hk (he.add more) hu

theorem DerivesArgumentsIn.add (more : Nat) : ∀ {depth ts es}, DerivesArgumentsIn depth ts es →
    DerivesArgumentsIn (more + depth) ts es
  | _, _, _, .last he => .last (he.add more)
  | _, _, _, .cons he hk hes => .cons (he.add more) hk (hes.add more)

end

variable {depth limit : Nat} {level : Level} {ts : List Token} {e : Expr} {es : List Expr}

theorem DerivesIn.mono (he : DerivesIn depth level ts e) (h : depth ≤ limit) :
    DerivesIn limit level ts e := by
  obtain ⟨more, rfl⟩ := Nat.exists_eq_add_of_le' h
  exact he.add more

theorem DerivesArgumentsIn.mono (hes : DerivesArgumentsIn depth ts es) (h : depth ≤ limit) :
    DerivesArgumentsIn limit ts es := by
  obtain ⟨more, rfl⟩ := Nat.exists_eq_add_of_le' h
  exact hes.add more

/-- A tighter expression is one of each looser level, and nests as deep. -/
theorem DerivesIn.loosen {l m : Level} (he : DerivesIn depth m ts e) (h : l.rank ≤ m.rank) :
    DerivesIn depth l ts e :=
  Level.of_rank_le (P := fun level => DerivesIn depth level ts e) .tighter h he

/-! ## As many levels as tokens -/

mutual

theorem Derives.derivesIn : ∀ {level ts e}, Derives level ts e → DerivesIn ts.length level ts e
  | _, _, _, .tighter hnext he => .tighter hnext he.derivesIn
  | _, _, _, .operation hk hop hl hr => by
      rw [List.length_append, List.length_cons, ← Nat.add_assoc]
      exact .produced (.operation hk hop (hl.derivesIn.mono (by omega))
        (hr.derivesIn.mono (Nat.le_add_left _ _)))
  | _, _, _, .signed hk hop he => .produced (.signed hk hop he.derivesIn)
  | _, _, _, .number hk hv => .produced (.number hk hv)
  | _, _, _, .identifier hk => .produced (.identifier hk)
  | _, _, _, .group hk he hu => by
      rw [List.length_cons, List.length_append]
      exact .group hk (he.derivesIn.mono (Nat.le_add_right _ _)) hu
  | _, _, _, .emptyCall hf hname hk hu => by
      rw [List.length_append, List.length_cons, ← Nat.add_assoc]
      exact .produced (.emptyCall (hf.derivesIn.mono (by omega)) hname hk hu)
  | _, _, _, .call hf hname hk hes hu => by
      rw [List.length_append, List.length_cons, List.length_append, ← Nat.add_assoc]
      exact .produced (.call (hf.derivesIn.mono (by omega)) hname hk
        (hes.derivesIn.mono (by omega)) hu)

theorem DerivesArguments.derivesIn : ∀ {ts es}, DerivesArguments ts es →
    DerivesArgumentsIn ts.length ts es
  | _, _, .last he => .last he.derivesIn
  | _, _, .cons he hk hes => by
      rw [List.length_append, List.length_cons]
      exact .cons (he.derivesIn.mono (by omega)) hk (hes.derivesIn.mono (by omega))

end

end Precedence

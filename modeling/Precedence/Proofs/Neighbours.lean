import Precedence.Proofs.Accepts
import Precedence.Proofs.DividedTokens
import Precedence.Proofs.Spelling

/-!
# Signs nobody wrote in an expression

Two operands are never next to each other in an expression: where two tokens that could be
multiplied have no sign between them, they are the parentheses of a call (`Derives.isChain`). And
each sign nobody wrote makes one node, so that the tree tells how many of them there were
(`Derives.countP_walk`).
-/

namespace Precedence

/-- Next to each other, only a closing and an opening parenthesis could be multiplied. -/
def Beside (t u : Token) : Prop :=
  t.kind.multiplies u.kind = true → t.kind = .closeParen ∧ u.kind = .openParen

def Expr.isJuxtaposed : Expr → Bool
  | juxtaposed _ _ _ => true
  | _ => false

variable {t u : Token} {ts us : List Token} {e f : Expr} {es : List Expr} {level : Level}

/-! ## Tokens side by side -/

theorem TokenKind.beginsOperand_of_multiplies {kind next : TokenKind}
    (h : kind.multiplies next = true) :
    next = .identifier ∨ next = .number ∨ next = .openParen := by
  revert h
  cases kind <;> cases next <;> decide

theorem beside_of_left (h : ¬ t.EndsOperand) : Beside t u := fun hmultiplies =>
  absurd (TokenKind.endsOperand_of_multiplies hmultiplies) h

theorem beside_of_right (h : u.kind ≠ .identifier ∧ u.kind ≠ .number ∧ u.kind ≠ .openParen) :
    Beside t u := by
  intro hmultiplies
  rcases TokenKind.beginsOperand_of_multiplies hmultiplies with hk | hk | hk
  · exact absurd hk h.1
  · exact absurd hk h.2.1
  · exact absurd hk h.2.2

/-- A token that neither ends an operand nor begins one. -/
structure Token.KeepsApart (t : Token) : Prop where
  left : ¬ t.EndsOperand
  right : t.kind ≠ .identifier ∧ t.kind ≠ .number ∧ t.kind ≠ .openParen

theorem Token.keepsApart_of_mem_operators (h : t.kind ∈ level.operators) : t.KeepsApart := by
  constructor
  · rintro (hk | hk) <;> rw [hk] at h <;> cases level <;> simp [Level.operators] at h
  · refine ⟨?_, ?_, ?_⟩ <;> intro hk <;> rw [hk] at h <;> cases level <;>
      simp [Level.operators] at h

theorem isChain_between (hts : ts.IsChain Beside) (ht : t.KeepsApart) (hus : us.IsChain Beside) :
    (ts ++ t :: us).IsChain Beside :=
  List.isChain_append.mpr ⟨hts, List.isChain_cons.mpr ⟨fun _ _ => beside_of_left ht.left, hus⟩,
    fun _ _ _ hhead => by cases hhead; exact beside_of_right ht.right⟩

/-- Whatever is in parentheses. -/
theorem isChain_parens (ht : t.kind = .openParen) (hts : ts.IsChain Beside)
    (hu : u.kind = .closeParen) : (t :: (ts ++ [u])).IsChain Beside := by
  have hopen : ¬ t.EndsOperand := by simp [Token.EndsOperand, ht]
  have hclose : ∀ v, Beside v u := fun _ => beside_of_right (by simp [hu])
  exact List.isChain_cons.mpr ⟨fun _ _ => beside_of_left hopen,
    List.isChain_append.mpr ⟨hts, .singleton u, fun _ _ _ hhead => by cases hhead; exact hclose _⟩⟩

/-- What stands for a name ends with the name, or with a parenthesis around it. -/
theorem Derives.getLast_of_isIdentifier (hf : Derives .atom ts f) (hname : f.isIdentifier = true) :
    ∀ t ∈ ts.getLast?, t.kind = .identifier ∨ t.kind = .closeParen := by
  cases hf with
  | tighter hnext => cases hnext
  | operation hk => cases hk
  | number => cases hname
  | identifier hk => rintro _ ⟨⟩; exact .inl hk
  | @group ts _ t u _ _ hu =>
    rw [← List.cons_append, List.getLast?_concat]
    rintro _ ⟨⟩
    exact .inr hu
  | emptyCall | call => cases hname

/-- A call has its parentheses behind a name. -/
theorem isChain_call (hf : Derives .atom ts f) (hname : f.isIdentifier = true)
    (hchain : ts.IsChain Beside) (ht : t.kind = .openParen) (hus : (t :: us).IsChain Beside) :
    (ts ++ t :: us).IsChain Beside := by
  refine List.isChain_append.mpr ⟨hchain, hus, fun x hx y hy hmultiplies => ?_⟩
  cases hy
  refine ⟨(hf.getLast_of_isIdentifier hname x hx).resolve_left fun hk => ?_, ht⟩
  rw [hk] at hmultiplies
  cases hmultiplies

mutual

/-- Operands are never next to each other. -/
theorem Derives.isChain : ∀ {level ts e}, Derives level ts e → ts.IsChain Beside
  | _, _, _, .tighter _ he => he.isChain
  | _, _, _, .operation hk _ hl hr =>
      isChain_between hl.isChain (Token.keepsApart_of_mem_operators hk) hr.isChain
  | _, _, _, .signed hk _ he =>
      List.isChain_cons.mpr ⟨fun _ _ => beside_of_left (by
        rcases hk with hk | hk <;> simp [Token.EndsOperand, hk]), he.isChain⟩
  | _, _, _, .number .. | _, _, _, .identifier .. => .singleton _
  | _, _, _, .group hk he hu => isChain_parens hk he.isChain hu
  | _, _, _, .emptyCall hf hname hk hu =>
      isChain_call hf hname hf.isChain hk (isChain_parens hk .nil hu)
  | _, _, _, .call hf hname hk hes hu =>
      isChain_call hf hname hf.isChain hk (isChain_parens hk hes.isChain hu)

theorem DerivesArguments.isChain : ∀ {ts es}, DerivesArguments ts es → ts.IsChain Beside
  | _, _, .last he => he.isChain
  | _, _, .cons he hk hes =>
      isChain_between he.isChain (by constructor <;> simp [Token.EndsOperand, hk]) hes.isChain

end

/-! ## Nodes for signs -/

theorem countP_walk_node {operator : Operator} {left right : Expr} {position : Position}
    (h : t.kind ∈ level.operators) :
    (level.node operator left right position).walk.countP Expr.isJuxtaposed =
      left.walk.countP Expr.isJuxtaposed +
        (right.walk.countP Expr.isJuxtaposed + if t.kind = .implicitStar then 1 else 0) := by
  cases level with
  | juxtaposition =>
    rw [if_pos (List.mem_singleton.mp h)]
    simp [Level.node, Expr.walk, List.countP_cons, Expr.isJuxtaposed]
  | _ =>
    have hk : t.kind ≠ .implicitStar := by intro hk; rw [hk] at h; simp [Level.operators] at h
    simp [Level.node, Expr.walk, Expr.isJuxtaposed, hk]

mutual

/-- Each sign nobody wrote makes a node, and no other token makes one of that sort. -/
theorem Derives.countP_walk : ∀ {level ts e}, Derives level ts e →
    e.walk.countP Expr.isJuxtaposed = countSigns ts
  | _, _, _, .tighter _ he => he.countP_walk
  | _, _, _, .operation hk _ hl hr => by
      rw [countP_walk_node hk, hl.countP_walk, hr.countP_walk, countSigns_append, countSigns_cons]
  | _, _, _, .signed hk _ he => by
      rw [countSigns_cons, ← he.countP_walk]
      rcases hk with hk | hk <;> simp [Expr.walk, Expr.isJuxtaposed, hk]
  | _, _, _, .number hk _ => by simp [Expr.walk, Expr.isJuxtaposed, countSigns, hk]
  | _, _, _, .identifier hk => by simp [Expr.walk, Expr.isJuxtaposed, countSigns, hk]
  | _, _, _, .group hk he hu => by
      rw [he.countP_walk, countSigns_cons, countSigns_append, countSigns_cons]
      simp [hk, hu, countSigns]
  | _, _, _, .emptyCall hf _ hk hu => by
      rw [countSigns_append, ← hf.countP_walk]
      simp [Expr.walk, Expr.walkAll, Expr.isJuxtaposed, countSigns, hk, hu]
  | _, _, _, .call hf _ hk hes hu => by
      rw [countSigns_append, countSigns_cons, countSigns_append, countSigns_cons,
        ← hf.countP_walk, ← hes.countP_walk]
      simp [Expr.walk, Expr.isJuxtaposed, countSigns, hk, hu]

theorem DerivesArguments.countP_walk : ∀ {ts es}, DerivesArguments ts es →
    (Expr.walkAll es).countP Expr.isJuxtaposed = countSigns ts
  | _, _, .last he => by rw [← he.countP_walk]; simp [Expr.walkAll]
  | _, _, .cons he hk hes => by
      rw [countSigns_append, countSigns_cons, ← he.countP_walk, ← hes.countP_walk]
      simp [Expr.walkAll, hk]

end

end Precedence

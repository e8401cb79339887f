import Precedence.Proofs.Derivation

/-!
# The rules of arithmetic, step by step

What a beginning and a continuation come down to when the rules are those of arithmetic, one lemma
for each way in which an expression begins or goes on. That an expression is read as it is derived
and that it fails where it is stuck are both said through these, and neither looks at the rules
again.
-/

namespace Precedence

namespace Parser

variable {p : Parser} {s : Progress} {power : Power} {room : Nat} {left : Expr}
  {good : Expr → Progress → Prop} {bad : Fault → Progress → Prop}

/-! ## Beginnings -/

theorem ends_beginning_none (hg : p.grammar = .arithmetic)
    (hrule : Grammar.arithmetic.prefixRule? (p.current s).kind = none) :
    Ends (p.beginning (p.expr room) power) s good bad ↔
      bad ⟨.noPrefixRule (p.current s).text, (p.current s).start⟩ (p.advanced s) := by
  rw [ends_beginning, hg, hrule]

theorem ends_beginning_operand (hg : p.grammar = .arithmetic)
    (hk : (p.current s).kind = .number ∨ (p.current s).kind = .identifier) :
    Ends (p.beginning (p.expr room) power) s good bad ↔
      match operandOf (p.current s) with
      | .ok e => good e (noted (.begins (p.current s) power) (p.advanced s))
      | .error fault => bad fault (noted (.begins (p.current s) power) (p.advanced s)) := by
  have hrule : Grammar.arithmetic.prefixRule? (p.current s).kind = some .operand := by
    rcases hk with hk | hk <;> rw [hk] <;> rfl
  rw [ends_beginning, hg, hrule]
  dsimp only
  rw [ends_prefixRule]
  dsimp only
  rw [ends_settle]
  cases operandOf (p.current s) <;> exact Iff.rfl

theorem ends_beginning_sign (hg : p.grammar = .arithmetic)
    (hk : (p.current s).kind = .plus ∨ (p.current s).kind = .dash) {operator : Operator}
    (hop : Operator.ofKind? (p.current s).kind = some operator) :
    Ends (p.beginning (p.expr room) power) s good bad ↔
      Ends (p.expr room .unary) (noted (.begins (p.current s) power) (p.advanced s))
        (fun e => good (.unary operator e (p.current s).start)) bad := by
  have hrule : Grammar.arithmetic.prefixRule? (p.current s).kind = some .sign := by
    rcases hk with hk | hk <;> rw [hk] <;> rfl
  have hpower : Grammar.arithmetic.operandPower (p.current s).kind = .unary := by
    rcases hk with hk | hk <;> rw [hk] <;> rfl
  rw [ends_beginning, hg, hrule]
  simp only [ends_prefixRule, ends_settle, operatorOf, hop, hg, hpower]

theorem ends_beginning_group (hg : p.grammar = .arithmetic)
    (hk : (p.current s).kind = .openParen) :
    Ends (p.beginning (p.expr room) power) s good bad ↔
      Ends (p.expr room .default) (noted (.begins (p.current s) power) (p.advanced s))
        (fun e t =>
          if (p.current t).kind = .closeParen then good e (p.advanced t)
          else bad (p.unclosed t) t) bad := by
  have hrule : Grammar.arithmetic.prefixRule? (p.current s).kind = some .group := by rw [hk]; rfl
  rw [ends_beginning, hg, hrule]
  dsimp only
  rw [ends_prefixRule]

theorem ends_beginning_eof (hg : p.grammar = .arithmetic) (hk : (p.current s).kind = .eof) :
    Ends (p.beginning (p.expr room) power) s good bad ↔
      if p.stream.isBlank then good .empty (noted (.begins (p.current s) power) (p.advanced s))
      else bad ⟨.incompleteExpression, (p.current s).start⟩
        (noted (.begins (p.current s) power) (p.advanced s)) := by
  have hrule : Grammar.arithmetic.prefixRule? (p.current s).kind = some .endOfInput := by
    rw [hk]; rfl
  rw [ends_beginning, hg, hrule]
  dsimp only
  rw [ends_prefixRule]
  dsimp only
  rw [ends_settle, nothingBefore]
  cases p.stream.isBlank <;> exact Iff.rfl

/-! ## Continuations -/

/-- An expression ends before a token that does not bind more tightly than its power. -/
theorem ends_climb_of_le (hg : p.grammar = .arithmetic)
    (hnext : Grammar.arithmetic.power (p.current s).kind ≤ power) :
    Ends (p.climb (p.expr room) power left) s good bad ↔ good left s := by
  rw [ends_climb_iff (forward_expr p room), hg, if_neg (Power.not_lt.mpr hnext)]

theorem ends_climb_of_lt (hg : p.grammar = .arithmetic)
    (hnext : power < Grammar.arithmetic.power (p.current s).kind) :
    Ends (p.climb (p.expr room) power left) s good bad ↔
      Ends (p.continuation (p.expr room) power left) s
        (fun whole t => Ends (p.climb (p.expr room) power whole) t good bad) bad := by
  rw [ends_climb_iff (forward_expr p room), hg, if_pos hnext]

/-- An operator of a level reads its right operand at the level's power of following. -/
theorem ends_continuation_operator (hg : p.grammar = .arithmetic) {level : Level}
    {rule : InfixRule} {operator : Operator}
    (ho : level.Operates (p.current s).kind rule operator) :
    Ends (p.continuation (p.expr room) power left) s good bad ↔
      Ends (p.expr room level.follow) (noted (.continues (p.current s) power) (p.advanced s))
        (fun right => good (level.node operator left right (p.current s).start)) bad := by
  rw [ends_continuation, hg, ho.infixRule?]
  dsimp only
  rw [ends_operator (by rw [hg, ho.power]; exact ho.rightPower?), ends_settle]
  simp only [operatorOf, ho.ofKind?, ho.node]

/-- An opening parenthesis calls a name, and nothing else. -/
theorem ends_continuation_call (hg : p.grammar = .arithmetic)
    (hk : (p.current s).kind = .openParen) :
    Ends (p.continuation (p.expr room) power left) s good bad ↔
      if left.isIdentifier = true then
        Ends (p.argumentsOrNone (p.expr room .default))
          (noted (.continues (p.current s) power) (p.advanced s))
          (fun es t =>
            if (p.current t).kind = .closeParen then
              good (.call left es (p.current s).start) (p.advanced t)
            else bad (p.unclosed t) t) bad
      else bad ⟨.notCallable left.text, (p.current s).start⟩
        (noted (.continues (p.current s) power) (p.advanced s)) := by
  have hrule : Grammar.arithmetic.infixRule? (p.current s).kind = some .call := by rw [hk]; rfl
  rw [ends_continuation, hg, hrule]
  dsimp only
  rw [ends_call, ends_settle, callable]
  cases left.isIdentifier <;> exact Iff.rfl

end Parser

end Precedence

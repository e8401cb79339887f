import Precedence.Parser.Forward

/-!
# How a step of a parse ends

`Ends m s good bad` says of a step `m`, taken in a state `s`, where it ends: well, with a result
and a state for which `good` holds, or with a fault and a state for which `bad` holds. What a
sequence does is then said by what its parts do (`ends_bind`), and a rule by what its operands do
(`ends_prefixRule`, `ends_operator`, `ends_call`), so that a fact about all expressions needs one
look at each rule and none at the code behind it.

The two loops have an invariant each. For `climb` it is about the expression read so far
(`ends_climb`); for `arguments` it is about the arguments that a comma already follows
(`ends_arguments`).

The three rules for operators differ in the power of the right operand and in the node they build
(`InfixRule.rightPower?`, `InfixRule.node`), and in nothing else.
-/

namespace Precedence

/-- The power at which an operator that binds at a power reads its right operand. A call has
none. -/
def InfixRule.rightPower? : InfixRule → Power → Option Power
  | .leftAssociative, power => some power
  | .rightAssociative, power => some power.weaker
  | .juxtaposition, power => some power
  | .call, _ => none

/-- The node an operator makes of its operands. -/
def InfixRule.node : InfixRule → Operator → Expr → Expr → Position → Expr
  | .juxtaposition, operator, left, right, _ => .juxtaposed operator left right
  | _, operator, left, right, position => .binary operator left right position

namespace Parser

variable {α β : Type}

/-- Taken in the state `s`, the step ends well as `good` says, or with a fault as `bad` says. -/
def Ends (m : ParseM α) (s : Progress) (good : α → Progress → Prop)
    (bad : Fault → Progress → Prop) : Prop :=
  match m s with
  | .ok a t => good a t
  | .error fault t => bad fault t

section Steps

variable {m : ParseM α} {s t : Progress} {good good' : α → Progress → Prop}
  {bad bad' : Fault → Progress → Prop}

theorem ends_of_ok {a : α} (hm : m s = .ok a t) : Ends m s good bad ↔ good a t := by
  simp only [Ends, hm]

theorem ends_of_error {fault : Fault} (hm : m s = .error fault t) :
    Ends m s good bad ↔ bad fault t := by
  simp only [Ends, hm]

theorem Ends.exists_ok (h : Ends m s good fun _ _ => False) : ∃ a t, m s = .ok a t ∧ good a t := by
  cases hm : m s with
  | ok a t => exact ⟨a, t, rfl, (ends_of_ok hm).mp h⟩
  | error fault t => exact ((ends_of_error hm).mp h).elim

theorem Ends.imp (h : Ends m s good bad) (hgood : ∀ a t, good a t → good' a t)
    (hbad : ∀ fault t, bad fault t → bad' fault t) : Ends m s good' bad' := by
  cases hm : m s with
  | ok a t => exact (ends_of_ok hm).mpr (hgood a t ((ends_of_ok hm).mp h))
  | error fault t => exact (ends_of_error hm).mpr (hbad fault t ((ends_of_error hm).mp h))

theorem Ends.imp_good (h : Ends m s good bad) (hgood : ∀ a t, good a t → good' a t) :
    Ends m s good' bad :=
  h.imp hgood fun _ _ hbad => hbad

/-- What is known of the endings of a step is known together. -/
theorem Ends.and (h : Ends m s good bad) (h' : Ends m s good' bad') :
    Ends m s (fun a t => good a t ∧ good' a t) fun fault t => bad fault t ∧ bad' fault t := by
  cases hm : m s with
  | ok a t => exact (ends_of_ok hm).mpr ⟨(ends_of_ok hm).mp h, (ends_of_ok hm).mp h'⟩
  | error fault t => exact (ends_of_error hm).mpr ⟨(ends_of_error hm).mp h, (ends_of_error hm).mp h'⟩

/-- How a step ends well and how it fails can be said apart. -/
theorem Ends.of_parts (hgood : Ends m s good fun _ _ => True)
    (hbad : Ends m s (fun _ _ => True) bad) : Ends m s good bad :=
  (hgood.and hbad).imp (fun _ _ h => h.1) fun _ _ h => h.2

theorem ends_pure {a : α} : Ends (pure a) s good bad ↔ good a s := Iff.rfl

theorem ends_bind {f : α → ParseM β} {good : β → Progress → Prop} :
    Ends (m >>= f) s good bad ↔ Ends m s (fun a t => Ends (f a) t good bad) bad := by
  simp only [Ends, bind, EStateM.bind]
  cases m s <;> exact Iff.rfl

theorem ends_settle {decided : Except Fault α} :
    Ends (settle decided) s good bad ↔
      match decided with
      | .ok a => good a s
      | .error fault => bad fault s := by
  cases decided <;> exact Iff.rfl

/-- What was decided is the result, or the parse stops where it is. -/
theorem ends_settle_of {decided : Except Fault α} (hgood : ∀ a, decided = .ok a → good a s)
    (hbad : ∀ fault, bad fault s) : Ends (settle decided) s good bad := by
  rw [ends_settle]
  cases hd : decided with
  | ok a => exact hgood a hd
  | error fault => exact hbad fault

theorem ends_expect {p : Parser} {kind : TokenKind} {fault : Fault}
    {good : Token → Progress → Prop} :
    Ends (p.expect kind fault) s good bad ↔
      if (p.current s).kind = kind then good (p.current s) (p.advanced s) else bad fault s := by
  unfold Ends expect
  split <;> rename_i h <;> split at h <;> cases h <;> simp only [if_pos, if_neg, *, not_false_iff]

theorem ends_close {p : Parser} {good : Token → Progress → Prop} :
    Ends p.close s good bad ↔
      if (p.current s).kind = .closeParen then good (p.current s) (p.advanced s)
      else bad (p.unclosed s) s := ends_expect

end Steps

/-! ## Rules -/

section Rules

variable {p : Parser} {expr : Power → ParseM Expr} {token : Token} {s : Progress}
  {good : Expr → Progress → Prop} {bad : Fault → Progress → Prop}

theorem ends_prefixRule (rule : PrefixRule) :
    Ends (rule.apply p expr token) s good bad ↔
      match rule with
      | .operand => Ends (settle (operandOf token)) s good bad
      | .endOfInput => Ends (settle (p.nothingBefore token)) s good bad
      | .sign =>
        Ends (settle (operatorOf token)) s (fun operator t =>
          Ends (expr (p.grammar.operandPower token.kind)) t (fun operand u =>
            good (.unary operator operand token.start) u) bad) bad
      | .group =>
        Ends (expr .default) s (fun inner t =>
          if (p.current t).kind = .closeParen then good inner (p.advanced t)
          else bad (p.unclosed t) t) bad := by
  cases rule <;> simp only [PrefixRule.apply, ends_bind, ends_pure, ends_close]

/-- What the rule of an operator does: it reads the right operand and makes the node. -/
theorem InfixRule.apply_eq {rule : InfixRule} {q : Power} {left : Expr}
    (h : rule.rightPower? (p.grammar.power token.kind) = some q) :
    rule.apply p expr left token = (do
      let operator ← settle (operatorOf token)
      let right ← expr q
      pure (rule.node operator left right token.start)) := by
  cases rule <;> cases h <;> rfl

theorem ends_operator {rule : InfixRule} {q : Power} {left : Expr}
    (h : rule.rightPower? (p.grammar.power token.kind) = some q) :
    Ends (rule.apply p expr left token) s good bad ↔
      Ends (settle (operatorOf token)) s (fun operator t =>
        Ends (expr q) t (fun right u => good (rule.node operator left right token.start) u) bad)
        bad := by
  simp only [InfixRule.apply_eq h, ends_bind, ends_pure]

theorem ends_call {left : Expr} :
    Ends (InfixRule.call.apply p expr left token) s good bad ↔
      Ends (settle (callable left token)) s (fun _ t =>
        Ends (p.argumentsOrNone (expr .default)) t (fun arguments u =>
          if (p.current u).kind = .closeParen then
            good (.call left arguments token.start) (p.advanced u)
          else bad (p.unclosed u) u) bad) bad := by
  simp only [InfixRule.apply, ends_bind, ends_pure, ends_close]

end Rules

/-! ## Loops -/

section Loops

variable {p : Parser} {expr : Power → ParseM Expr} {power : Power} {s : Progress}
  {good : Expr → Progress → Prop} {bad : Fault → Progress → Prop}

theorem ends_beginning :
    Ends (p.beginning expr power) s good bad ↔
      match p.grammar.prefixRule? (p.current s).kind with
      | none => bad ⟨.noPrefixRule (p.current s).text, (p.current s).start⟩ (p.advanced s)
      | some rule =>
        Ends (rule.apply p expr (p.current s))
          (noted (.begins (p.current s) power) (p.advanced s)) good bad := by
  simp only [Ends, beginning]
  cases p.grammar.prefixRule? (p.current s).kind <;> exact Iff.rfl

theorem ends_continuation {left : Expr} :
    Ends (p.continuation expr power left) s good bad ↔
      match p.grammar.infixRule? (p.current s).kind with
      | none => bad ⟨.noInfixRule (p.current s).text, (p.current s).start⟩ (p.advanced s)
      | some rule =>
        Ends (rule.apply p expr left (p.current s))
          (noted (.continues (p.current s) power) (p.advanced s)) good bad := by
  simp only [Ends, continuation]
  cases p.grammar.infixRule? (p.current s).kind <;> exact Iff.rfl

/-- One round of the loop of continuations. -/
theorem ends_climb_iff (he : ∀ power, Forward (expr power)) {left : Expr} :
    Ends (p.climb expr power left) s good bad ↔
      if power < p.grammar.power (p.current s).kind then
        Ends (p.continuation expr power left) s
          (fun whole t => Ends (p.climb expr power whole) t good bad) bad
      else good left s := by
  by_cases hlt : power < p.grammar.power (p.current s).kind
  · simp only [Ends, if_pos hlt, climb_eq he power left s]
    cases p.continuation expr power left s <;> exact Iff.rfl
  · simp only [Ends, if_neg hlt, climb_eq he power left s]

/-- What holds of an expression as it is begun, and is kept by each continuation, holds of it
where no continuation binds tightly enough. -/
theorem ends_climb (he : ∀ power, Forward (expr power)) {inv : Expr → Progress → Prop}
    (stop : ∀ left t, inv left t → ¬ power < p.grammar.power (p.current t).kind → good left t)
    (step : ∀ left t, inv left t → power < p.grammar.power (p.current t).kind →
      Ends (p.continuation expr power left) t inv bad)
    {left : Expr} {s : Progress} (h : inv left s) :
    Ends (p.climb expr power left) s good bad := by
  rw [ends_climb_iff he]
  split
  · rename_i hlt
    have hstep := step left s h hlt
    cases hc : p.continuation expr power left s with
    | error fault t => exact (ends_of_error hc).mpr ((ends_of_error hc).mp hstep)
    | ok whole t =>
      have hread := remaining_continuation_lt he hc
      exact (ends_of_ok hc).mpr (ends_climb he stop step ((ends_of_ok hc).mp hstep))
  · rename_i hlt
    exact stop left s h hlt
termination_by p.remaining s

/-- One round of the loop of arguments. -/
theorem ends_arguments_iff {argument : ParseM Expr} (ha : Forward argument)
    {good : List Expr → Progress → Prop} :
    Ends (p.arguments argument) s good bad ↔
      if (p.current s).isOneOf [.comma, .closeParen] then bad (p.malformed s) s
      else Ends argument s (fun e t =>
        match (p.current t).kind with
        | .comma => Ends (p.arguments argument) (p.advanced t) (fun es => good (e :: es)) bad
        | .closeParen => good [e] t
        | .eof => bad (p.unclosed t) t
        | _ => bad (p.malformed t) t) bad := by
  by_cases hd : (p.current s).isOneOf [.comma, .closeParen] = true
  · simp only [Ends, if_pos hd, arguments_eq ha s]
  · simp only [Ends, if_neg hd, arguments_eq ha s]
    cases argument s with
    | error fault t => exact Iff.rfl
    | ok e t =>
      dsimp only
      cases (p.current t).kind with
      | comma => dsimp only; cases p.arguments argument (p.advanced t) <;> exact Iff.rfl
      | _ => exact Iff.rfl

section Arguments

variable {argument : ParseM Expr} {inv good : List Expr → Progress → Prop}

/-- What holds after a comma of the arguments read so far leads to an ending of the whole list. -/
theorem ends_arguments_from (ha : Forward argument)
    (delimiter : ∀ done t, inv done t → (p.current t).isOneOf [.comma, .closeParen] = true →
      bad (p.malformed t) t)
    (step : ∀ done t, inv done t → ¬ (p.current t).isOneOf [.comma, .closeParen] = true →
      Ends argument t (fun e u =>
        match (p.current u).kind with
        | .comma => inv (done ++ [e]) (p.advanced u)
        | .closeParen => good (done ++ [e]) u
        | .eof => bad (p.unclosed u) u
        | _ => bad (p.malformed u) u) bad)
    {done : List Expr} {s : Progress} (h : inv done s) :
    Ends (p.arguments argument) s (fun es t => good (done ++ es) t) bad := by
  rw [ends_arguments_iff ha]
  split
  · rename_i hd
    exact delimiter done s h hd
  · rename_i hd
    have hstep := step done s h hd
    cases hc : argument s with
    | error fault t => exact (ends_of_error hc).mpr ((ends_of_error hc).mp hstep)
    | ok e t =>
      have hnext := (ends_of_ok hc).mp hstep
      rw [ends_of_ok hc]
      cases hk : (p.current t).kind with
      | comma =>
        rw [hk] at hnext
        have hlt : t.cursor < p.stream.body.size := cursor_lt_of_kind_ne (by rw [hk]; decide)
        have hread : p.remaining (p.advanced t) < p.remaining t :=
          remaining_advanced_lt (Nat.lt_succ_of_lt hlt)
        have hle : p.remaining t ≤ p.remaining s := Nat.sub_le_sub_left (ha _ _ _ hc) _
        have hrest := ends_arguments_from ha delimiter step hnext
        simpa only [List.append_assoc, List.singleton_append] using hrest
      | _ => rw [hk] at hnext; exact hnext
termination_by p.remaining s

/-- What holds before the first argument, and is kept by each argument with its comma, leads to an
ending of the whole list. -/
theorem ends_arguments (ha : Forward argument) (h : inv [] s)
    (delimiter : ∀ done t, inv done t → (p.current t).isOneOf [.comma, .closeParen] = true →
      bad (p.malformed t) t)
    (step : ∀ done t, inv done t → ¬ (p.current t).isOneOf [.comma, .closeParen] = true →
      Ends argument t (fun e u =>
        match (p.current u).kind with
        | .comma => inv (done ++ [e]) (p.advanced u)
        | .closeParen => good (done ++ [e]) u
        | .eof => bad (p.unclosed u) u
        | _ => bad (p.malformed u) u) bad) :
    Ends (p.arguments argument) s good bad :=
  ends_arguments_from ha delimiter step h

end Arguments

theorem ends_argumentsOrNone {argument : ParseM Expr} {good : List Expr → Progress → Prop} :
    Ends (p.argumentsOrNone argument) s good bad ↔
      if (p.current s).kind = .closeParen then good [] s
      else Ends (p.arguments argument) s good bad := by
  unfold Ends argumentsOrNone
  by_cases h : (p.current s).kind = .closeParen
  · simp only [if_pos h]
  · simp only [if_neg h]

/-- A beginning and its continuations: an expression, but for the account of its depth. -/
def phrase (p : Parser) (room : Nat) (power : Power) : ParseM Expr := do
  let left ← p.beginning (p.expr room) power
  p.climb (p.expr room) power left

theorem ends_phrase {room : Nat} :
    Ends (p.phrase room power) s good bad ↔
      Ends (p.beginning (p.expr room) power) s
        (fun left t => Ends (p.climb (p.expr room) power left) t good bad) bad := ends_bind

theorem ends_expr_succ {room : Nat} :
    Ends (p.expr (room + 1) power) s good bad ↔
      Ends (p.phrase room power) { s with depth := s.depth + 1 }
        (fun whole t => good whole { t with depth := t.depth - 1 }) bad := by
  rw [ends_phrase]
  simp only [expr, ends_bind]
  exact Iff.rfl

theorem ends_expr_zero :
    Ends (p.expr 0 power) s good bad ↔
      bad ⟨.nestingTooDeep p.maxDepth, (p.current s).start⟩ s := Iff.rfl

end Loops

end Parser

end Precedence

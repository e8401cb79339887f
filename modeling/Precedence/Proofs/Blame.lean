import Precedence.Proofs.CutShort

/-!
# Where faults come from

Reading an expression fails at one of a few places: where it would lie too deep, where a token
begins or continues nothing, where a rule declines its token, and where a parenthesis or a comma is
missing. What holds of the fault and of the state at each of these places (`Covers`) holds wherever
an expression is not read (`faults_expr`), however many others it was to be part of.
-/

namespace Precedence

/-- The rule makes nothing of the token, before anything more is read. -/
def PrefixRule.Declines (rule : PrefixRule) (p : Parser) (token : Token) (fault : Fault) : Prop :=
  match rule with
  | .operand => Parser.operandOf token = .error fault
  | .endOfInput => p.nothingBefore token = .error fault
  | .sign => Parser.operatorOf token = .error fault
  | .group => False

def InfixRule.Declines (rule : InfixRule) (left : Expr) (token : Token) (fault : Fault) : Prop :=
  match rule with
  | .leftAssociative | .rightAssociative | .juxtaposition => Parser.operatorOf token = .error fault
  | .call => Parser.callable left token = .error fault

namespace Parser

variable {p : Parser} {s : Progress} {fault : Fault} {token : Token} {left : Expr}

/-! ## What rules decide beforehand -/

theorem cause_operandOf (h : operandOf token = .error fault) :
    fault.cause = .numberParseError token.text ∨ fault.cause = .noPrefixRule token.text := by
  unfold operandOf at h
  split at h
  · split at h <;> cases h
    exact .inl rfl
  all_goals cases h
  exact .inr rfl

theorem cause_nothingBefore (h : p.nothingBefore token = .error fault) :
    fault.cause = .incompleteExpression := by
  unfold nothingBefore at h
  split at h <;> cases h
  rfl

theorem cause_callable (h : callable left token = .error fault) :
    fault.cause = .notCallable left.text := by
  unfold callable at h
  split at h <;> cases h
  rfl

theorem operatorOf_eq_error (h : operatorOf token = .error fault) :
    Operator.ofKind? token.kind = none ∧ fault = ⟨.noInfixRule token.text, token.start⟩ := by
  unfold operatorOf at h
  split at h
  · cases h
  · rename_i hnone
    cases h
    exact ⟨hnone, rfl⟩

/-! ## The places -/

/-- At every place where reading an expression fails, `bad` holds of the fault and of the state. -/
structure Covers (p : Parser) (bad : Fault → Progress → Prop) : Prop where
  tooDeep : ∀ s, bad (p.tooDeep s) s
  unclosed : ∀ s, bad (p.unclosed s) s
  malformed : ∀ s, bad (p.malformed s) s
  noPrefixRule : ∀ s, p.grammar.prefixRule? (p.current s).kind = none →
    bad ⟨.noPrefixRule (p.current s).text, (p.current s).start⟩ (p.advanced s)
  /-- The loop asks for a rule only where the token binds. -/
  noInfixRule : ∀ s, .default < p.grammar.power (p.current s).kind →
    p.grammar.infixRule? (p.current s).kind = none →
    bad ⟨.noInfixRule (p.current s).text, (p.current s).start⟩ (p.advanced s)
  begins : ∀ s power rule fault, p.grammar.prefixRule? (p.current s).kind = some rule →
    rule.Declines p (p.current s) fault →
    bad fault (noted (.begins (p.current s) power) (p.advanced s))
  continues : ∀ s power rule left fault, p.grammar.infixRule? (p.current s).kind = some rule →
    rule.Declines left (p.current s) fault →
    bad fault (noted (.continues (p.current s) power) (p.advanced s))

section Faults

variable {bad : Fault → Progress → Prop} {expr : Power → ParseM Expr} {power : Power} {room : Nat}

theorem faults_prefixRule (hbad : p.Covers bad)
    (he : ∀ q t, Ends (expr q) t (fun _ _ => True) bad) (rule : PrefixRule)
    (hrule : ∀ fault, rule.Declines p token fault → bad fault s) :
    Ends (rule.apply p expr token) s (fun _ _ => True) bad := by
  rw [ends_prefixRule]
  cases rule with
  | operand =>
    rw [ends_settle]
    cases hd : operandOf token with
    | ok e => trivial
    | error fault => exact hrule fault hd
  | endOfInput =>
    rw [ends_settle]
    cases hd : p.nothingBefore token with
    | ok e => trivial
    | error fault => exact hrule fault hd
  | sign =>
    rw [ends_settle]
    cases hd : operatorOf token with
    | ok operator => exact he _ _
    | error fault => exact hrule fault hd
  | group =>
    refine (he _ _).imp_good fun inner t _ => ?_
    split
    · trivial
    · exact hbad.unclosed t

theorem faults_arguments (hbad : p.Covers bad) (hf : ∀ q, Forward (expr q))
    (he : ∀ q t, Ends (expr q) t (fun _ _ => True) bad) :
    Ends (p.argumentsOrNone (expr .default)) s (fun _ _ => True) bad := by
  rw [ends_argumentsOrNone]
  split
  · trivial
  · refine ends_arguments (hf _) (by trivial) (fun _ t (_ : True) _ => hbad.malformed t)
      fun done t _ _ => (he _ _).imp_good fun e u _ => ?_
    split
    · trivial
    · trivial
    · exact hbad.unclosed u
    · exact hbad.malformed u

theorem faults_infixRule (hbad : p.Covers bad) (hf : ∀ q, Forward (expr q))
    (he : ∀ q t, Ends (expr q) t (fun _ _ => True) bad) (rule : InfixRule)
    (hrule : ∀ fault, rule.Declines left token fault → bad fault s) :
    Ends (rule.apply p expr left token) s (fun _ _ => True) bad := by
  cases hq : rule.rightPower? (p.grammar.power token.kind) with
  | some q =>
    rw [ends_operator hq, ends_settle]
    cases hd : operatorOf token with
    | ok operator => exact he _ _
    | error fault => exact hrule fault (by cases rule <;> first | exact hd | cases hq)
  | none =>
    cases rule <;> cases hq
    rw [ends_call, ends_settle]
    cases hd : callable left token with
    | error fault => exact hrule fault hd
    | ok _ =>
      refine (faults_arguments hbad hf he).imp_good fun es t _ => ?_
      split
      · trivial
      · exact hbad.unclosed t

theorem faults_beginning (hbad : p.Covers bad)
    (he : ∀ q t, Ends (expr q) t (fun _ _ => True) bad) :
    Ends (p.beginning expr power) s (fun _ _ => True) bad := by
  rw [ends_beginning]
  split
  · rename_i hnone
    exact hbad.noPrefixRule s hnone
  · rename_i rule hrule
    exact faults_prefixRule hbad he rule fun fault => hbad.begins s power rule fault hrule

theorem faults_climb (hbad : p.Covers bad) (hf : ∀ q, Forward (expr q))
    (he : ∀ q t, Ends (expr q) t (fun _ _ => True) bad) :
    Ends (p.climb expr power left) s (fun _ _ => True) bad := by
  refine ends_climb hf (fun _ _ (_ : True) _ => trivial) (fun left t _ hlt => ?_) trivial
  rw [ends_continuation]
  split
  · rename_i hnone
    exact hbad.noInfixRule t (Nat.zero_lt_of_lt hlt) hnone
  · rename_i rule hrule
    exact faults_infixRule hbad hf he rule fun fault => hbad.continues t power rule left fault hrule

/-- By induction on the room: an expression that is not read has failed at one of the places. -/
theorem faults_expr (hbad : p.Covers bad) (room : Nat) (power : Power) (s : Progress) :
    Ends (p.expr room power) s (fun _ _ => True) bad := by
  induction room generalizing power s with
  | zero => exact ends_expr_zero.mpr (hbad.tooDeep s)
  | succ room ih =>
    rw [ends_expr_succ, ends_phrase]
    refine (faults_beginning hbad ih).imp_good fun left t _ => ?_
    exact faults_climb hbad (forward_expr p room) ih

end Faults

end Parser

end Precedence

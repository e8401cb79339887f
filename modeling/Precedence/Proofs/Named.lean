import Precedence.Proofs.Lexeme
import Precedence.Proofs.Viable

/-!
# What a fault names

A fault of the parser names the token it points at, and each cause is a fault of certain tokens only
(`Fault.Cause.Names`). Where the row is one that scanning can give, in which an unwritten
multiplication sign stands behind a number or a closing parenthesis, that token is never such a
sign (`Blocked.kind_ne_implicitStar`): behind an operand the sign continues the expression, so no
expression is stuck at it.
-/

namespace Precedence

/-- The cause is about the token. -/
def Fault.Cause.Names (u : Token) : Fault.Cause → Prop
  | .noPrefixRule text | .unusedTokens text => text = u.text ∧ u.kind ≠ .eof
  | .numberParseError text => text = u.text ∧ u.kind = .number
  | .incompleteExpression => u.kind = .eof
  | .missingClosingParen found | .malformedArguments found => found = u.describe
  | .notCallable _ => u.kind = .openParen
  | .unrecognisedToken _ | .malformedNumber _ | .noInfixRule _ | .nestingTooDeep _ => False

mutual

theorem Stuck.names : ∀ {power ts u fault}, Stuck power ts u fault → fault.cause.Names u
  | _, _, _, _, .noRule h => ⟨rfl, fun hk => by rw [hk] at h; cases h⟩
  | _, _, _, _, .badNumber hk _ => ⟨rfl, hk⟩
  | _, _, _, _, .ended hk => hk
  | _, _, _, _, .openGroup .. => rfl
  | _, _, _, _, .notCallable _ _ hk => hk
  | _, _, _, _, .signed _ h | _, _, _, _, .group _ h | _, _, _, _, .operand _ _ _ h => h.names
  | _, _, _, _, .call _ _ _ _ h => h.names

theorem StuckArguments.names : ∀ {ts u fault}, StuckArguments ts u fault → fault.cause.Names u
  | _, _, _, .delimiter _ | _, _, _, .unclosed .. | _, _, _, .malformed .. => rfl
  | _, _, _, .argument _ h => h.names
  | _, _, _, .cons _ _ h => h.names

end

variable {ts us : List Token} {t u : Token} {fault : Fault}

theorem getLast_cons {P : Token → Prop} (ht : P t) (hus : ∀ v ∈ us.getLast?, P v) :
    ∀ v ∈ (t :: us).getLast?, P v := by
  intro v hv
  rw [List.getLast?_cons] at hv
  cases hl : us.getLast? with
  | none => rw [hl] at hv; cases hv; exact ht
  | some w => rw [hl] at hv; cases hv; exact hus _ hl

theorem getLast_append_cons {P : Token → Prop} (ht : P t) (hus : ∀ v ∈ us.getLast?, P v) :
    ∀ v ∈ (ts ++ t :: us).getLast?, P v := by
  intro v hv
  refine getLast_cons ht hus v ?_
  simpa using hv

theorem Token.not_endsOperand_of_mem_operators {level : Level} (hk : t.kind ∈ level.operators) :
    ¬ t.EndsOperand := by
  rintro (h | h) <;> rw [h] at hk <;> cases level <;> simp [Level.operators] at hk

theorem not_power_implicitStar_le (hu : u.kind = .implicitStar) :
    ¬ Grammar.arithmetic.power u.kind ≤ .default := by
  rw [hu]
  decide

mutual

/-- Where an expression is stuck at an unwritten sign, no operand ends right before it. -/
theorem Stuck.not_endsOperand (hu : u.kind = .implicitStar) :
    ∀ {power ts fault}, Stuck power ts u fault → ∀ v ∈ ts.getLast?, ¬ v.EndsOperand
  | _, _, _, .noRule _ | _, _, _, .badNumber .. | _, _, _, .ended _ => nofun
  | _, _, _, .signed hk h => getLast_cons
      (by rcases hk with hk | hk <;> simp [Token.EndsOperand, hk]) (h.not_endsOperand hu)
  | _, _, _, .group hk h => getLast_cons
      (by simp [Token.EndsOperand, hk]) (h.not_endsOperand hu)
  | _, _, _, .openGroup _ _ hend _ => absurd hend (not_power_implicitStar_le hu)
  | _, _, _, .operand _ hk _ h => getLast_append_cons
      (Token.not_endsOperand_of_mem_operators hk) (h.not_endsOperand hu)
  | _, _, _, .notCallable _ _ hk => by rw [hu] at hk; cases hk
  | _, _, _, .call _ _ hk _ h => getLast_append_cons
      (by simp [Token.EndsOperand, hk]) (h.not_endsOperand hu)

theorem StuckArguments.not_endsOperand (hu : u.kind = .implicitStar) :
    ∀ {ts fault}, StuckArguments ts u fault → ∀ v ∈ ts.getLast?, ¬ v.EndsOperand
  | _, _, .delimiter _ => nofun
  | _, _, .argument _ h => h.not_endsOperand hu
  | _, _, .unclosed _ hk => by rw [hu] at hk; cases hk
  | _, _, .malformed _ hend _ => absurd hend (not_power_implicitStar_le hu)
  | _, _, .cons _ hk h => getLast_append_cons
      (by simp [Token.EndsOperand, hk]) (h.not_endsOperand hu)

end

namespace Blocked

theorem names (h : Blocked ts u fault) : fault.cause.Names u := by
  cases h with
  | stuck h => exact h.names
  | unused _ _ hu => exact ⟨rfl, hu⟩

/-- The limit on nesting has no part in it. -/
theorem cause_ne (h : Blocked ts u fault) (limit : Nat) : fault.cause ≠ .nestingTooDeep limit := by
  intro hc
  have hnames := h.names
  rw [hc] at hnames
  exact hnames

theorem kind_ne_implicitStar (h : Blocked ts u fault) (hts : ∃ t ∈ ts.getLast?, t.EndsOperand) :
    u.kind ≠ .implicitStar := by
  intro hu
  obtain ⟨t, ht, hend⟩ := hts
  cases h with
  | stuck h => exact h.not_endsOperand hu t ht hend
  | unused _ hpower _ => exact not_power_implicitStar_le hu hpower

end Blocked

/-- A parse of arithmetic that fails, unless expressions nest too deep, is blocked by a token. -/
theorem exists_blocked_of_parseTokens {tokens : List Token} {maxDepth : Nat}
    (herror : ∀ t ∈ tokens, t.kind ≠ .error) (hcause : ∀ limit, fault.cause ≠ .nestingTooDeep limit)
    (h : parseTokens .arithmetic maxDepth tokens = .error fault) :
    ∃ ts u, ts ++ [u] <+: (Stream.ofList tokens).tokens ∧ Blocked ts u fault := by
  rw [parseTokens, runTokens_eq_run herror] at h
  exact (blocked_or_deep_of_run_error rfl h).resolve_left fun hdeep => hcause _ hdeep.1

end Precedence

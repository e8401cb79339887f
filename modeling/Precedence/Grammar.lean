import Precedence.Power
import Precedence.Token

/-!
# Grammars

A grammar says, kind of token by kind of token, how an expression may begin (`PrefixRule`), how
one may go on (`InfixRule`), how tightly a continuing token binds, and at what power the operand
of a sign in front is read. These are four tables, each with at most one entry a kind, and a
grammar is built by registrations that fill one or two of them. A later registration of a kind
replaces the earlier.

A kind may begin an expression by one rule and continue one by another: an opening parenthesis
begins a group and continues a name to a call.

`arithmetic` is the grammar of the language itself.
-/

namespace Precedence

inductive PrefixRule where
  /-- A number or a name stands for itself. -/
  | operand
  /-- The end of the text is the empty expression, if there is nothing before it. -/
  | endOfInput
  /-- A sign is followed by its operand. -/
  | sign
  /-- An opening parenthesis is followed by an expression and its closing one. -/
  | group
deriving DecidableEq, Repr, Inhabited

inductive InfixRule where
  /-- An operator that leaves an equal operator on its right to the whole: grouping to the left. -/
  | leftAssociative
  /-- An operator that takes an equal operator on its right into its operand. -/
  | rightAssociative
  /-- Two operands side by side; groups to the left. -/
  | juxtaposition
  /-- An opening parenthesis, after a name, opens its arguments. -/
  | call
deriving DecidableEq, Repr, Inhabited

/-- The rules of a language by kind of token. -/
structure Grammar where
  /-- How a token of the kind begins an expression. -/
  prefixRule? : TokenKind → Option PrefixRule
  /-- How a token of the kind continues an expression. -/
  infixRule? : TokenKind → Option InfixRule
  /-- How tightly a token of the kind binds what stands before it. -/
  power? : TokenKind → Option Power
  /-- The power at which the operand of a sign of the kind is read. -/
  operandPower? : TokenKind → Option Power

inductive Registration where
  /-- Tokens of the kind continue an expression, binding at a power. -/
  | continues (kind : TokenKind) (power : Power) (rule : InfixRule)
  /-- Tokens of the kind begin an expression. -/
  | begins (kind : TokenKind) (rule : PrefixRule)
  /-- Tokens of the kind begin an expression as signs whose operand is read at a power. -/
  | signs (kind : TokenKind) (power : Power) (rule : PrefixRule)
deriving DecidableEq, Repr

namespace Grammar

/-- No token begins or continues anything. -/
def empty : Grammar := ⟨fun _ => none, fun _ => none, fun _ => none, fun _ => none⟩

instance : Inhabited Grammar := ⟨empty⟩

/-- A table with one entry put in place of what was there. -/
def set {α : Type} (table : TokenKind → Option α) (kind : TokenKind) (entry : α) :
    TokenKind → Option α :=
  fun k => if k = kind then some entry else table k

theorem set_self {α : Type} (table : TokenKind → Option α) (kind : TokenKind) (entry : α) :
    set table kind entry kind = some entry := by
  simp [set]

theorem set_of_ne {α : Type} {table : TokenKind → Option α} {kind k : TokenKind} {entry : α}
    (h : k ≠ kind) : set table kind entry k = table k := by
  simp [set, h]

def register (g : Grammar) : Registration → Grammar
  | .continues kind power rule =>
      { g with power? := set g.power? kind power, infixRule? := set g.infixRule? kind rule }
  | .begins kind rule =>
      { g with prefixRule? := set g.prefixRule? kind rule }
  | .signs kind power rule =>
      { g with
        operandPower? := set g.operandPower? kind power
        prefixRule? := set g.prefixRule? kind rule }

/-- The grammar with several registrations more, the later over the earlier. -/
def registerAll (g : Grammar) (registrations : List Registration) : Grammar :=
  registrations.foldl register g

/-- How tightly a token binds what stands before it. A kind without an entry does not bind, and so
ends every expression. -/
def power (g : Grammar) (kind : TokenKind) : Power :=
  (g.power? kind).getD .default

def operandPower (g : Grammar) (kind : TokenKind) : Power :=
  (g.operandPower? kind).getD .default

/-- A grammar that registrations have built from nothing. -/
def IsRegistered (g : Grammar) : Prop :=
  ∃ registrations : List Registration, g = empty.registerAll registrations

/-- The grammar says how tightly a token binds exactly if it says how the token continues an
expression. -/
def IsPaired (g : Grammar) : Prop :=
  ∀ kind, g.power? kind = none ↔ g.infixRule? kind = none

theorem IsPaired.register {g : Grammar} (h : g.IsPaired) (r : Registration) :
    (g.register r).IsPaired := by
  intro kind
  cases r with
  | continues k power rule =>
    by_cases hk : kind = k
    · simp [Grammar.register, set, hk]
    · simpa [Grammar.register, set, hk] using h kind
  | begins => exact h kind
  | signs => exact h kind

theorem IsPaired.registerAll {g : Grammar} (h : g.IsPaired) (registrations : List Registration) :
    (g.registerAll registrations).IsPaired := by
  induction registrations generalizing g with
  | nil => exact h
  | cons r rest ih => exact ih (h.register r)

theorem IsRegistered.isPaired {g : Grammar} (h : g.IsRegistered) : g.IsPaired := by
  obtain ⟨registrations, rfl⟩ := h
  exact IsPaired.registerAll (fun _ => ⟨fun _ => rfl, fun _ => rfl⟩) registrations

/-- What does not continue an expression does not bind. -/
theorem IsPaired.power_eq_default {g : Grammar} (h : g.IsPaired) {kind : TokenKind}
    (hrule : g.infixRule? kind = none) : g.power kind = .default := by
  rw [power, (h kind).mpr hrule]
  rfl

/-- The grammar of arithmetic. Comparison binds least, then sums, products, products without a
sign, powers and signs; a call binds most. Powers alone group to the right. -/
def arithmetic : Grammar :=
  empty.registerAll
    [.continues .equals .equality .leftAssociative,
      .continues .notEquals .equality .leftAssociative,
      .continues .plus .additive .leftAssociative,
      .continues .dash .additive .leftAssociative,
      .continues .star .multiplicative .leftAssociative,
      .continues .slash .multiplicative .leftAssociative,
      .continues .implicitStar .implicitMultiplicative .juxtaposition,
      .continues .caret .exponent .rightAssociative,
      .continues .openParen .call .call,
      .begins .number .operand,
      .begins .identifier .operand,
      .begins .openParen .group,
      .begins .eof .endOfInput,
      .signs .plus .unary .sign,
      .signs .dash .unary .sign]

end Grammar

end Precedence

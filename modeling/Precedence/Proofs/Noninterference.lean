import Precedence.Proofs.Alike

/-!
# What a parse does not read

Where its tokens stand, and how an operator, a parenthesis or the end of the text is written, never
decides a parse: rows that are alike in kinds, numbers and names are both accepted or both refused
(`parseTokens_of_alike`). What was not read comes back only where a result quotes it. A node, and a
fault, holds the place of some token, and the fault the text of that same token; the other result
holds what the token of the same index has there, the token that closes a row counting as its last.
-/

namespace Precedence

namespace Expr

variable {P Q : Position → Position → Prop}

mutual

theorem Alike.imp (hPQ : ∀ p p', P p p' → Q p p') : ∀ {e e' : Expr}, e.Alike P e' → e.Alike Q e'
  | empty, empty, _ => trivial
  | number _ _, number _ _, h => ⟨h.1, hPQ _ _ h.2⟩
  | identifier _ _, identifier _ _, h => ⟨h.1, hPQ _ _ h.2⟩
  | unary .., unary .., h => ⟨h.1, h.2.1.imp hPQ, hPQ _ _ h.2.2⟩
  | binary .., binary .., h => ⟨h.1, h.2.1.imp hPQ, h.2.2.1.imp hPQ, hPQ _ _ h.2.2.2⟩
  | juxtaposed .., juxtaposed .., h => ⟨h.1, h.2.1.imp hPQ, h.2.2.imp hPQ⟩
  | call .., call .., h => ⟨h.1.imp hPQ, h.2.1.imp hPQ, hPQ _ _ h.2.2⟩

theorem AllAlike.imp (hPQ : ∀ p p', P p p' → Q p p') : ∀ {es es' : List Expr},
    AllAlike P es es' → AllAlike Q es es'
  | [], [], _ => trivial
  | _ :: _, _ :: _, h => ⟨h.1.imp hPQ, h.2.imp hPQ⟩

end

end Expr

/-- A complaint is of one kind, whatever token it is about. -/
theorem Fault.Complaint.name_eq {complaint : Token → Fault.Cause} (h : Complaint complaint)
    (t u : Token) : (complaint t).name = (complaint u).name := by
  cases h <;> rfl

/-! ## Tokens of the same index -/

/-- The two rows, closed, hold these tokens at the same index. -/
def AtSameIndex (ts ts' : List Token) (t t' : Token) : Prop :=
  ∃ i : Nat, (Stream.ofList ts).tokens[i]? = some t ∧ (Stream.ofList ts').tokens[i]? = some t'

/-- The places where tokens of the same index begin. -/
def StartAtSameIndex (ts ts' : List Token) (p p' : Position) : Prop :=
  ∃ t t', AtSameIndex ts ts' t t' ∧ p = t.start ∧ p' = t'.start

section Rows

variable {ts ts' : List Token}

theorem atSameIndex_token (h : List.Forall₂ Token.Alike ts ts') (i : Nat) :
    AtSameIndex ts ts' ((Stream.ofList ts).token i) ((Stream.ofList ts').token i) := by
  refine ⟨min i (Stream.ofList ts).body.size, Stream.getElem?_tokens_min _ i, ?_⟩
  rw [(Stream.alike_ofList h).size]
  exact Stream.getElem?_tokens_min _ i

theorem startAtSameIndex_of_samePlace (h : List.Forall₂ Token.Alike ts ts') {p p' : Position}
    (hplace : (Stream.ofList ts).SamePlace (.ofList ts') p p') : StartAtSameIndex ts ts' p p' := by
  obtain ⟨i, rfl, rfl⟩ := hplace
  exact ⟨_, _, atSameIndex_token h i, rfl, rfl⟩

/-! ## The two results -/

/-- What the parses of two rows have in common. -/
structure ParsedAlike (g : Grammar) (maxDepth : Nat) (ts ts' : List Token) : Prop where
  /-- Both are accepted or neither is. -/
  accepted : (parseTokens g maxDepth ts).isOk = (parseTokens g maxDepth ts').isOk
  /-- The trees differ in their places only, and these are where tokens of the same index begin. -/
  trees : ∀ e e', parseTokens g maxDepth ts = .ok e → parseTokens g maxDepth ts' = .ok e' →
    e.placeless = e'.placeless ∧ e.Alike (StartAtSameIndex ts ts') e'
  /-- The faults are of one kind, and say the same of tokens of the same index, where these
  begin. -/
  faults : ∀ fault fault', parseTokens g maxDepth ts = .error fault →
    parseTokens g maxDepth ts' = .error fault' →
    fault.cause.name = fault'.cause.name ∧
      ∃ complaint t t', Fault.Complaint complaint ∧ AtSameIndex ts ts' t t' ∧
        fault = ⟨complaint t, t.start⟩ ∧ fault' = ⟨complaint t', t'.start⟩

/-- A parse depends on nothing but the kinds of its tokens and the texts of numbers and names. -/
theorem parseTokens_of_alike (g : Grammar) (maxDepth : Nat)
    (h : List.Forall₂ Token.Alike ts ts') : ParsedAlike g maxDepth ts ts' := by
  have hsame := @sameResult_parseTokens _ _ g maxDepth h
  refine ⟨?_, fun e e' he he' => ?_, fun fault fault' hfault hfault' => ?_⟩
  · cases hp : parseTokens g maxDepth ts <;> cases hp' : parseTokens g maxDepth ts' <;>
      rw [hp, hp'] at hsame <;> first | rfl | exact hsame.elim
  · rw [he, he'] at hsame
    exact ⟨hsame.placeless_eq, hsame.imp fun _ _ => startAtSameIndex_of_samePlace h⟩
  · rw [hfault, hfault'] at hsame
    obtain ⟨complaint, i, hc, rfl, rfl⟩ := hsame
    exact ⟨hc.name_eq _ _, complaint, _, _, hc, atSameIndex_token h i, rfl, rfl⟩

/-- An open product in one line. -/
def openProduct : List Token :=
  [.inLine .openParen "(" 1, .inLine .identifier "a" 2, .inLine .star "*" 4]

/-- The same product spread over lines, with other brackets and another sign. -/
def openProductSpread : List Token :=
  [⟨.openParen, "[", ⟨⟨3, 1⟩, ⟨3, 2⟩⟩⟩, ⟨.identifier, "a", ⟨⟨3, 5⟩, ⟨3, 6⟩⟩⟩,
    ⟨.star, "·", ⟨⟨4, 2⟩, ⟨4, 3⟩⟩⟩]

/-- Both rows end where a factor should begin, each at the end of its last token. -/
theorem parseTokens_of_alike_openProduct :
    List.Forall₂ Token.Alike openProduct openProductSpread ∧
      ParsedAlike .arithmetic 3 openProduct openProductSpread ∧
      parseTokens .arithmetic 3 openProduct = .error ⟨.incompleteExpression, ⟨1, 4⟩⟩ ∧
      parseTokens .arithmetic 3 openProductSpread = .error ⟨.incompleteExpression, ⟨4, 3⟩⟩ := by
  have h : List.Forall₂ Token.Alike openProduct openProductSpread := by
    simp [openProduct, openProductSpread, Token.Alike, Token.inLine]
  exact ⟨h, parseTokens_of_alike .arithmetic 3 h, by cbv, by cbv⟩

end Rows

end Precedence

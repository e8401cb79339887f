import Precedence.Proofs.Blame
import Precedence.Proofs.Dispatches
import Precedence.Proofs.TextFaults

/-!
# A branch that is never reached

The loop of continuations turns where a token binds tighter than the power, and then asks the
grammar by which rule the token continues the expression. Two tables answer, and a registration
fills both or neither. So there always is a rule, and what the loop would do without one does not
matter: with anything else in that place the parser is the same (`exprOr_eq`).

What is left to miss an operator are the rules that ask for one. Such a fault is for the token that
a rule was applied to last, and this token means no operator (`MissesOperator`). By the rules of
arithmetic there is no such token.
-/

namespace Precedence

/-- The rule that was applied builds the node of an operator. -/
def Dispatch.AsksOperator (g : Grammar) : Dispatch → Prop
  | .begins token _ => g.prefixRule? token.kind = some .sign
  | .continues token _ => ∃ rule, g.infixRule? token.kind = some rule ∧ rule ≠ .call

/-- The fault is for the token of the dispatch, whose rule asked it for an operator in vain. -/
structure MissesOperator (g : Grammar) (dispatch : Dispatch) (fault : Fault) : Prop where
  asks : dispatch.AsksOperator g
  means : Operator.ofKind? dispatch.token.kind = none
  fault_eq : fault = ⟨.noInfixRule dispatch.token.text, dispatch.token.start⟩

theorem Grammar.MeansOperators.not_missesOperator {g : Grammar} {dispatch : Dispatch}
    {fault : Fault} (hg : g.MeansOperators) : ¬ MissesOperator g dispatch fault := by
  rintro ⟨hasks, hmeans, -⟩
  have hoperator : ∃ operator, Operator.ofKind? dispatch.token.kind = some operator := by
    cases dispatch with
    | begins token power => exact hg.sign _ hasks
    | continues token power =>
      obtain ⟨rule, hrule, hcall⟩ := hasks
      exact hg.operator _ rule hrule hcall
  obtain ⟨operator, hoperator⟩ := hoperator
  cases hmeans.symm.trans hoperator

namespace Parser

variable {p : Parser} {s t : Progress} {fault : Fault} {room : Nat} {power : Power}

/-! ## Another branch in its place -/

section Branch

variable (p : Parser) (missing : Power → Expr → ParseM Expr) (expr : Power → ParseM Expr)
  (power : Power) (left : Expr)

/-- One continuation of `left`, where `missing` is done with a token that continues nothing. -/
def continuationOr : ParseM Expr := fun s =>
  match p.grammar.infixRule? (p.current s).kind with
  | none => missing power left s
  | some rule =>
    rule.apply p expr left (p.current s) (noted (.continues (p.current s) power) (p.advanced s))

/-- The loop of continuations with that branch. -/
def climbOr (left : Expr) : ParseM Expr := fun s =>
  if power < p.grammar.power (p.current s).kind then
    match p.continuationOr missing expr power left s with
    | .error fault t => .error fault t
    | .ok whole t =>
      if _h : p.remaining t < p.remaining s then climbOr whole t
      else .ok whole t
  else .ok left s
termination_by s => p.remaining s

/-- An expression at a power, all of whose loops have that branch. -/
def exprOr : Nat → Power → ParseM Expr
  | 0, _ => p.refuse
  | room + 1, power => do
    deeper
    let left ← p.beginning (exprOr room) power
    let whole ← p.climbOr missing (exprOr room) power left
    leave
    pure whole

def exprHereOr : ParseM Expr := fun s => p.exprOr missing (p.room s) power s

end Branch

/-- What the loop does with a token that binds and continues nothing. -/
def unruled (p : Parser) : ParseM Expr := fun s =>
  .error ⟨.noInfixRule (p.current s).text, (p.current s).start⟩ (p.advanced s)

section Branch

variable {missing : Power → Expr → ParseM Expr} {expr : Power → ParseM Expr}

/-- The branch is not reached, or it is the one that the loop has. -/
def Substitutes (p : Parser) (missing : Power → Expr → ParseM Expr) : Prop :=
  ∀ power left s, power < p.grammar.power (p.current s).kind →
    p.grammar.infixRule? (p.current s).kind = none → missing power left s = p.unruled s

theorem continuationOr_eq (h : p.Substitutes missing) {left : Expr}
    (hlt : power < p.grammar.power (p.current s).kind) :
    p.continuationOr missing expr power left s = p.continuation expr power left s := by
  unfold continuationOr continuation
  cases hrule : p.grammar.infixRule? (p.current s).kind with
  | none =>
    simp only [hrule]
    exact h power left s hlt hrule
  | some rule => simp only [hrule]

theorem climbOr_eq (h : p.Substitutes missing) (left : Expr) (s : Progress) :
    p.climbOr missing expr power left s = p.climb expr power left s := by
  rw [climbOr, climb]
  split
  · rename_i hlt
    rw [continuationOr_eq h hlt]
    cases p.continuation expr power left s with
    | error fault t => rfl
    | ok whole t =>
      dsimp only
      split
      · exact climbOr_eq h whole t
      · rfl
  · rfl
termination_by p.remaining s

/-- By induction on the room. -/
theorem exprOr_eq (h : p.Substitutes missing) (room : Nat) (power : Power) :
    p.exprOr missing room power = p.expr room power := by
  induction room generalizing power with
  | zero => rfl
  | succ room ih =>
    have hexpr : p.exprOr missing room = p.expr room := funext ih
    have hclimb : ∀ left, p.climbOr missing (p.expr room) power left =
        p.climb (p.expr room) power left := fun left => funext fun s => climbOr_eq h left s
    simp only [exprOr, expr, hexpr, hclimb]

/-- With the branch it has, the parser is the one with another branch in its place. -/
theorem exprHereOr_unruled (p : Parser) (power : Power) :
    p.exprHereOr (fun _ _ => p.unruled) power = p.exprHere power :=
  funext fun s => congrFun (exprOr_eq (fun _ _ _ _ _ => rfl) (p.room s) power) s

/-- Where tokens that bind have a rule, it is the parser with any branch in its place. -/
theorem exprHereOr_eq (h : p.grammar.IsPaired) (missing : Power → Expr → ParseM Expr)
    (power : Power) : p.exprHereOr missing power = p.exprHere power := by
  have hunreached : p.Substitutes missing := by
    intro power left s hlt hnone
    rw [h.power_eq_default hnone] at hlt
    exact absurd hlt power.not_lt_default
  exact funext fun s => congrFun (exprOr_eq hunreached (p.room s) power) s

end Branch

/-! ## Operators that are missing -/

/-- A fault that misses an operator is for the token that a rule was applied to last, a token of the
stream. -/
def BlamesOperator (p : Parser) (fault : Fault) (t : Progress) : Prop :=
  ∀ text, fault.cause = .noInfixRule text → ∃ dispatch rest, t.trace = dispatch :: rest ∧
    dispatch.token ∈ p.stream.tokens ∧ MissesOperator p.grammar dispatch fault

theorem blamesOperator_of_ne (h : ∀ text, fault.cause ≠ .noInfixRule text) :
    p.BlamesOperator fault t :=
  fun text htext => absurd htext (h text)

/-- A rule that declines its token for want of an operator has just been put on record. -/
theorem blamesOperator_of_operatorOf {dispatch : Dispatch} (htoken : dispatch.token = p.current s)
    (hasks : dispatch.AsksOperator p.grammar) (h : operatorOf (p.current s) = .error fault) :
    p.BlamesOperator fault (noted dispatch (p.advanced s)) := by
  obtain ⟨hmeans, hfault⟩ := operatorOf_eq_error h
  rw [← htoken] at hmeans hfault
  refine fun _ _ => ⟨dispatch, _, rfl, ?_, hasks, hmeans, hfault⟩
  rw [htoken]
  exact p.stream.token_mem_tokens s.cursor

/-- Of the places where an expression may not be read, those where a rule declines its token miss an
operator, since the loop does not. -/
theorem covers_blamesOperator (h : p.grammar.IsPaired) : p.Covers p.BlamesOperator where
  tooDeep _ := blamesOperator_of_ne nofun
  unclosed _ := blamesOperator_of_ne nofun
  malformed _ := blamesOperator_of_ne nofun
  noPrefixRule _ _ := blamesOperator_of_ne nofun
  noInfixRule s hlt hnone := by
    rw [h.power_eq_default hnone] at hlt
    exact absurd hlt (Power.not_lt_default _)
  begins s power rule fault hrule hdeclines := by
    cases rule with
    | operand =>
      refine blamesOperator_of_ne fun text htext => ?_
      rcases cause_operandOf hdeclines with h | h <;> cases htext.symm.trans h
    | endOfInput =>
      exact blamesOperator_of_ne fun text htext =>
        by cases htext.symm.trans (cause_nothingBefore hdeclines)
    | sign => exact blamesOperator_of_operatorOf rfl hrule hdeclines
    | group => exact hdeclines.elim
  continues s power rule left fault hrule hdeclines := by
    cases rule with
    | leftAssociative | rightAssociative | juxtaposition =>
      exact blamesOperator_of_operatorOf rfl ⟨_, hrule, nofun⟩ hdeclines
    | call =>
      exact blamesOperator_of_ne fun text htext =>
        by cases htext.symm.trans (cause_callable hdeclines)

theorem blamesOperator_of_exprHere (h : p.grammar.IsPaired)
    (hread : p.exprHere power s = .error fault t) : p.BlamesOperator fault t :=
  (ends_of_error hread).mp (faults_expr (covers_blamesOperator h) (p.room s) power s)

theorem blamesOperator_of_whole (h : p.grammar.IsPaired) :
    Ends p.whole .start (fun _ _ => True) p.BlamesOperator := by
  rw [ends_whole]
  refine (faults_expr (covers_blamesOperator h) p.maxDepth .default .start).imp_good fun e t _ => ?_
  split
  · trivial
  · exact blamesOperator_of_ne nofun

end Parser

/-! ## Registrations -/

variable {g : Grammar} {maxDepth : Nat} {tokens : List Token} {fault : Fault}

theorem exists_missesOperator (h : g.IsPaired) (hparse : parseTokens g maxDepth tokens = .error fault)
    {text : String} (hcause : fault.cause = .noInfixRule text) :
    ∃ dispatch, (runTokens g maxDepth tokens).dispatches.getLast? = some dispatch ∧
      dispatch.token ∈ (Stream.ofList tokens).tokens ∧ MissesOperator g dispatch fault := by
  by_cases herror : ∀ t ∈ tokens, t.kind ≠ .error
  · obtain ⟨t, hdispatches, hresult⟩ := Parser.run_of_ends
      (Parser.blamesOperator_of_whole (p := ⟨g, .ofList tokens, maxDepth⟩) h)
    rw [parseTokens, runTokens_eq_run herror] at hparse
    rw [hparse] at hresult
    obtain ⟨dispatch, rest, htrace, hmem, hmisses⟩ := hresult text hcause
    refine ⟨dispatch, ?_, hmem, hmisses⟩
    rw [runTokens_eq_run herror, hdispatches, htrace, List.getLast?_reverse, List.head?_cons]
  · obtain ⟨t, -, -, hall⟩ := exists_runTokens_eq_of_error herror
    rw [parseTokens, hall] at hparse
    cases hparse
    cases hcause

/-- The grammar has a rule wherever its loop asks for one. -/
structure Grammar.NeverUnruled (g : Grammar) : Prop where
  /-- The same kinds bind and continue. -/
  paired : ∀ kind, (g.power? kind).isSome ↔ (g.infixRule? kind).isSome
  /-- Whatever the loop did without a rule, expressions are read as they are. -/
  unreached : ∀ stream maxDepth missing power,
    Parser.exprHereOr ⟨g, stream, maxDepth⟩ missing power =
      Parser.exprHere ⟨g, stream, maxDepth⟩ power
  /-- An operator is missed by the rule that was applied last, and by its token. -/
  misses : ∀ maxDepth tokens fault, parseTokens g maxDepth tokens = .error fault →
    ∀ text, fault.cause = .noInfixRule text →
      ∃ dispatch, (runTokens g maxDepth tokens).dispatches.getLast? = some dispatch ∧
        dispatch.token ∈ (Stream.ofList tokens).tokens ∧ MissesOperator g dispatch fault

theorem Grammar.IsPaired.neverUnruled (h : g.IsPaired) : g.NeverUnruled where
  paired kind := by
    rw [Option.isSome_iff_ne_none, Option.isSome_iff_ne_none]
    exact not_congr (h kind)
  unreached stream maxDepth missing power :=
    Parser.exprHereOr_eq (p := ⟨g, stream, maxDepth⟩) h missing power
  misses maxDepth tokens fault hparse text hcause := exists_missesOperator h hparse hcause

theorem Grammar.isPaired_arithmetic : Grammar.arithmetic.IsPaired :=
  IsRegistered.isPaired ⟨_, rfl⟩

/-- Whatever is registered, in a grammar of nothing or in that of arithmetic, there is a rule wherever
the loop asks for one; and by the rules of arithmetic no operator is missed, in no stream and from
no state on. -/
theorem neverUnruled_registerAll :
    (∀ registrations, (Grammar.empty.registerAll registrations).NeverUnruled) ∧
      (∀ registrations, (Grammar.arithmetic.registerAll registrations).NeverUnruled) ∧
      (∀ stream maxDepth power s fault t,
        Parser.exprHere ⟨.arithmetic, stream, maxDepth⟩ power s = .error fault t →
          ∀ text, fault.cause ≠ .noInfixRule text) ∧
      ∀ maxDepth tokens fault, parseTokens .arithmetic maxDepth tokens = .error fault →
        ∀ text, fault.cause ≠ .noInfixRule text := by
  have harithmetic := Grammar.isPaired_arithmetic
  refine ⟨fun registrations => ?_, fun registrations => ?_, ?_, ?_⟩
  · exact (Grammar.IsRegistered.isPaired ⟨registrations, rfl⟩).neverUnruled
  · exact (harithmetic.registerAll registrations).neverUnruled
  · intro stream maxDepth power s fault t hread text hcause
    obtain ⟨_, _, -, -, hmisses⟩ := Parser.blamesOperator_of_exprHere harithmetic hread text hcause
    exact meansOperators_arithmetic.not_missesOperator hmisses
  · intro maxDepth tokens fault hparse text hcause
    obtain ⟨_, -, -, hmisses⟩ := exists_missesOperator harithmetic hparse hcause
    exact meansOperators_arithmetic.not_missesOperator hmisses

/-- A comma that was registered as an operator means none. -/
example : parseTokens (Grammar.arithmetic.register (.continues .comma .additive .leftAssociative)) 9
    [.inLine .identifier "a" 1, .inLine .comma "," 2, .inLine .identifier "b" 3] =
      .error ⟨.noInfixRule ",", ⟨1, 2⟩⟩ := by cbv

/-- In a grammar that is not made of registrations, where a comma binds and continues nothing, the
branch is reached. -/
example : (Parser.exprHereOr
    ⟨{ Grammar.arithmetic with power? := Grammar.set Grammar.arithmetic.power? .comma .additive },
      .ofList [.inLine .identifier "a" 1, .inLine .comma "," 2], 9⟩
    (fun _ left => pure left) .default .start) = .ok (.identifier "a" ⟨1, 1⟩)
      ⟨1, 0, [.begins (.inLine .identifier "a" 1) .default]⟩ := by cbv

end Precedence

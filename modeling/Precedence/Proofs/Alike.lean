import Mathlib.Data.List.Forall2
import Precedence.Proofs.Source

/-!
# Parses of alike rows

A parse looks at the kinds of its tokens, at the texts of numbers and names, and at nothing else.
So two rows that agree in these (`Token.Alike`) are parsed step by step in the same way: in states
that stand at tokens of the same index the two parses end together (`Together`), with trees that
differ in their places only, or with the same complaint about tokens of the same index. This is
kept by sequencing, and each construct of the parser needs one lemma.

A place in one of the trees, and the place of a fault, is where a token begins, and in the other it
is where the token of the same index begins (`Stream.SamePlace`).
-/

namespace Precedence

/-! ## Tokens and trees -/

/-- Of the same kind and, if they are numbers or names, of the same text. -/
def Token.Alike (t u : Token) : Prop :=
  t.kind = u.kind ∧ (t.kind = .number ∨ t.kind = .identifier → t.text = u.text)

/-- As many tokens, and alike one by one. -/
structure Stream.Alike (w w' : Stream) : Prop where
  size : w.body.size = w'.body.size
  token : ∀ i, (w.token i).Alike (w'.token i)

/-- Where two tokens of the same index begin. -/
def Stream.SamePlace (w w' : Stream) (p p' : Position) : Prop :=
  ∃ i, p = (w.token i).start ∧ p' = (w'.token i).start

namespace Expr

mutual

/-- Two trees that differ in their places only, and there as `P` says. -/
def Alike (P : Position → Position → Prop) : Expr → Expr → Prop
  | empty, empty => True
  | number value p, number value' p' => value = value' ∧ P p p'
  | identifier name p, identifier name' p' => name = name' ∧ P p p'
  | unary operator x p, unary operator' x' p' => operator = operator' ∧ x.Alike P x' ∧ P p p'
  | binary operator l r p, binary operator' l' r' p' =>
      operator = operator' ∧ l.Alike P l' ∧ r.Alike P r' ∧ P p p'
  | juxtaposed operator l r, juxtaposed operator' l' r' =>
      operator = operator' ∧ l.Alike P l' ∧ r.Alike P r'
  | call f xs p, call f' xs' p' => f.Alike P f' ∧ AllAlike P xs xs' ∧ P p p'
  | _, _ => False

def AllAlike (P : Position → Position → Prop) : List Expr → List Expr → Prop
  | [], [] => True
  | x :: xs, y :: ys => x.Alike P y ∧ AllAlike P xs ys
  | _, _ => False

end

variable {P : Position → Position → Prop}

mutual

theorem Alike.text_eq : ∀ {e e' : Expr}, e.Alike P e' → e.text = e'.text
  | empty, empty, _ => rfl
  | number _ _, number _ _, h => by rw [text, text, h.1]
  | identifier _ _, identifier _ _, h => h.1
  | unary _ x _, unary _ x' _, h => by rw [text, text, h.1, h.2.1.text_eq]
  | binary .., binary .., h => by rw [text, text, h.1, h.2.1.text_eq, h.2.2.1.text_eq]
  | juxtaposed .., juxtaposed .., h => by rw [text, text, h.1, h.2.1.text_eq, h.2.2.text_eq]
  | call .., call .., h => by rw [text, text, h.1.text_eq, h.2.1.argumentsText_eq]

theorem AllAlike.argumentsText_eq : ∀ {es es' : List Expr}, AllAlike P es es' →
    argumentsText es = argumentsText es'
  | [], [], _ => rfl
  | _ :: _, _ :: _, h => by
      rw [argumentsText, argumentsText, h.1.text_eq, h.2.argumentsText_eq]

end

theorem Alike.isIdentifier_eq {e e' : Expr} (h : e.Alike P e') :
    e.isIdentifier = e'.isIdentifier := by
  cases e <;> cases e' <;> first | rfl | exact h.elim

end Expr

/-! ## Faults and results -/

namespace Fault

/-- What can be said of a token to complain about it. -/
inductive Complaint : (Token → Cause) → Prop
  | unrecognisedToken : Complaint fun u => .unrecognisedToken u.text
  | numberParseError : Complaint fun u => .numberParseError u.text
  | noPrefixRule : Complaint fun u => .noPrefixRule u.text
  | noInfixRule : Complaint fun u => .noInfixRule u.text
  | incompleteExpression : Complaint fun _ => .incompleteExpression
  | missingClosingParen : Complaint fun u => .missingClosingParen u.describe
  | notCallable (callee : String) : Complaint fun _ => .notCallable callee
  | malformedArguments : Complaint fun u => .malformedArguments u.describe
  | unusedTokens : Complaint fun u => .unusedTokens u.text
  | nestingTooDeep (limit : Nat) : Complaint fun _ => .nestingTooDeep limit

/-- A complaint says the same of tokens with the same text. -/
theorem Complaint.eq_of_text {complaint : Token → Cause} (h : Complaint complaint) {t u : Token}
    (hk : t.kind = u.kind) (htext : t.text = u.text) : complaint t = complaint u := by
  have hdescribe : t.describe = u.describe := by unfold Token.describe; rw [hk, htext]
  cases h <;> simp only [htext, hdescribe]

/-- The same complaint about two tokens of the same index. -/
def Alike (w w' : Stream) (fault fault' : Fault) : Prop :=
  ∃ complaint i, Complaint complaint ∧
    fault = ⟨complaint (w.token i), (w.token i).start⟩ ∧
    fault' = ⟨complaint (w'.token i), (w'.token i).start⟩

end Fault

/-- Two results of which `R` holds, or the same complaint twice. -/
def Stream.SameResult {α : Type} (w w' : Stream) (R : α → α → Prop) :
    Except Fault α → Except Fault α → Prop
  | .ok a, .ok a' => R a a'
  | .error fault, .error fault' => fault.Alike w w' fault'
  | _, _ => False

namespace Parser

variable {α β : Type}

/-- Two steps that end at tokens of the same index, with results of which `R` holds, or with the
same complaint. -/
inductive SameEnd (w w' : Stream) (R : α → α → Prop) :
    EStateM.Result Fault Progress α → EStateM.Result Fault Progress α → Prop
  | ok {a a' t t'} (h : R a a') (ht : t.cursor = t'.cursor) : SameEnd w w' R (.ok a t) (.ok a' t')
  | error {fault fault' t t'} (h : fault.Alike w w' fault') :
      SameEnd w w' R (.error fault t) (.error fault' t')

/-- Taken at tokens of the same index, the two steps end in the same way. -/
def Together (p p' : Parser) (R : α → α → Prop) (m m' : ParseM α) : Prop :=
  ∀ s s', s.cursor = s'.cursor → SameEnd p.stream p'.stream R (m s) (m' s')

/-- The trees of the two parses. -/
abbrev SameTree (p p' : Parser) : Expr → Expr → Prop :=
  Expr.Alike (p.stream.SamePlace p'.stream)

/-- Two parsers of alike streams. -/
structure Alike (p p' : Parser) : Prop where
  grammar : p.grammar = p'.grammar
  maxDepth : p.maxDepth = p'.maxDepth
  stream : p.stream.Alike p'.stream

/-- The two tokens have the same index. -/
def SameToken (p p' : Parser) (t t' : Token) : Prop :=
  ∃ i, t = p.stream.token i ∧ t' = p'.stream.token i

variable {p p' : Parser} {R : α → α → Prop} {S : β → β → Prop} {s s' : Progress} {t t' : Token}

theorem Together.bind {m m' : ParseM α} {f f' : α → ParseM β} (h : Together p p' R m m')
    (hf : ∀ a a', R a a' → Together p p' S (f a) (f' a')) :
    Together p p' S (m >>= f) (m' >>= f') := by
  intro s s' hs
  have hm := h s s' hs
  simp only [Bind.bind, EStateM.bind]
  revert hm
  generalize m s = r
  generalize m' s' = r'
  rintro (⟨ha, ht⟩ | hfault)
  · exact hf _ _ ha _ _ ht
  · exact .error hfault

theorem together_pure {a a' : α} (h : R a a') : Together p p' R (pure a) (pure a') :=
  fun _ _ hs => .ok h hs

theorem together_settle {decided decided' : Except Fault α}
    (h : p.stream.SameResult p'.stream R decided decided') :
    Together p p' R (settle decided) (settle decided') := by
  intro s s' hs
  cases decided <;> cases decided' <;> first | exact h.elim | skip
  · exact .error h
  · exact .ok h hs

theorem together_deeper : Together p p' (fun _ _ => True) deeper deeper :=
  fun _ _ hs => .ok trivial hs

theorem together_leave : Together p p' (fun _ _ => True) leave leave :=
  fun _ _ hs => .ok trivial hs

/-! ## Tokens in hand -/

theorem sameToken_current (p p' : Parser) (hs : s.cursor = s'.cursor) :
    p.SameToken p' (p.current s) (p'.current s') :=
  ⟨s.cursor, rfl, by rw [hs]; rfl⟩

theorem SameToken.fault (h : p.SameToken p' t t') {complaint : Token → Fault.Cause}
    (hc : Fault.Complaint complaint) :
    Fault.Alike p.stream p'.stream ⟨complaint t, t.start⟩ ⟨complaint t', t'.start⟩ := by
  obtain ⟨i, rfl, rfl⟩ := h
  exact ⟨complaint, i, hc, rfl, rfl⟩

theorem SameToken.samePlace (h : p.SameToken p' t t') :
    p.stream.SamePlace p'.stream t.start t'.start := by
  obtain ⟨i, rfl, rfl⟩ := h
  exact ⟨i, rfl, rfl⟩

theorem SameToken.alike (h : p.SameToken p' t t') (hp : p.Alike p') : t.Alike t' := by
  obtain ⟨i, rfl, rfl⟩ := h
  exact hp.stream.token i

theorem cursor_advanced_congr (hp : p.Alike p') (hs : s.cursor = s'.cursor) :
    (p.advanced s).cursor = (p'.advanced s').cursor := by
  rw [cursor_advanced_eq, cursor_advanced_eq, hs, Stream.size, Stream.size, hp.stream.size]

theorem sameResult_operandOf (hp : p.Alike p') (h : p.SameToken p' t t') :
    p.stream.SameResult p'.stream (p.SameTree p') (operandOf t) (operandOf t') := by
  obtain ⟨hk, htext⟩ := h.alike hp
  have hplace := h.samePlace
  unfold operandOf
  rw [← hk]
  split
  · rename_i hnumber
    rw [← htext (.inl hnumber)]
    split
    · exact ⟨rfl, hplace⟩
    · rw [htext (.inl hnumber)]
      have hfault := h.fault .numberParseError
      rwa [htext (.inl hnumber)] at hfault
  · rename_i hname
    exact ⟨htext (.inr hname), hplace⟩
  · exact h.fault .noPrefixRule

theorem sameResult_operatorOf (hp : p.Alike p') (h : p.SameToken p' t t') :
    p.stream.SameResult p'.stream Eq (operatorOf t) (operatorOf t') := by
  unfold operatorOf
  rw [← (h.alike hp).1]
  split
  · rfl
  · exact h.fault .noInfixRule

theorem sameResult_nothingBefore (hp : p.Alike p') (h : p.SameToken p' t t') :
    p.stream.SameResult p'.stream (p.SameTree p') (p.nothingBefore t) (p'.nothingBefore t') := by
  have hblank : p.stream.isBlank = p'.stream.isBlank := by
    simp only [Stream.isBlank, Array.isEmpty, hp.stream.size]
  unfold nothingBefore
  rw [← hblank]
  split
  · trivial
  · exact h.fault .incompleteExpression

theorem sameResult_callable {left left' : Expr} (hl : p.SameTree p' left left')
    (h : p.SameToken p' t t') :
    p.stream.SameResult p'.stream (fun _ _ => True) (callable left t) (callable left' t') := by
  unfold callable
  rw [← hl.isIdentifier_eq, ← hl.text_eq]
  split
  · trivial
  · exact h.fault (.notCallable left.text)

theorem together_close (hp : p.Alike p') : Together p p' (fun _ _ => True) p.close p'.close := by
  intro s s' hs
  have ht := sameToken_current p p' hs
  unfold close expect
  rw [← (ht.alike hp).1]
  split
  · exact .ok trivial (cursor_advanced_congr hp hs)
  · exact .error (ht.fault .missingClosingParen)

/-! ## Arguments -/

section Steps

variable {argument argument' : ParseM Expr} {expr expr' : Power → ParseM Expr} {power : Power}
  {left left' : Expr}

/-- Two ways to read an expression, step by step alike, of which neither goes back. -/
structure Paired (p p' : Parser) (m m' : ParseM Expr) : Prop where
  together : Together p p' (p.SameTree p') m m'
  forward : Forward m
  forward' : Forward m'

theorem isOneOf_congr {kinds : List TokenKind} (hp : p.Alike p') (h : p.SameToken p' t t') :
    t.isOneOf kinds = t'.isOneOf kinds := by
  rw [Token.isOneOf, Token.isOneOf, (h.alike hp).1]

theorem together_arguments (hp : p.Alike p') (h : p.Paired p' argument argument') (s s' : Progress)
    (hs : s.cursor = s'.cursor) :
    SameEnd p.stream p'.stream (Expr.AllAlike (p.stream.SamePlace p'.stream))
      (p.arguments argument s) (p'.arguments argument' s') := by
  have hcurrent := sameToken_current p p' hs
  rw [arguments_eq h.forward, arguments_eq h.forward', ← isOneOf_congr hp hcurrent]
  split
  · exact .error (hcurrent.fault .malformedArguments)
  have hfirst := h.together s s' hs
  have hle := h.forward s
  revert hfirst hle
  generalize argument s = r
  generalize argument' s' = r'
  rintro (⟨hfirst, ht⟩ | hfault) hle
  · rename_i first first' t t'
    have hnext := sameToken_current p p' ht
    have hk := (hnext.alike hp).1
    dsimp only
    rw [← hk]
    split
    · rename_i hcomma
      have hlt : t.cursor < p.stream.body.size := cursor_lt_of_kind_ne (by rw [hcomma]; decide)
      have hread : p.remaining (p.advanced t) < p.remaining t :=
        remaining_advanced_lt (Nat.lt_succ_of_lt hlt)
      have hback : p.remaining t ≤ p.remaining s := Nat.sub_le_sub_left (hle _ _ rfl) _
      have hrest := together_arguments hp h _ _ (cursor_advanced_congr hp ht)
      revert hrest
      generalize p.arguments argument (p.advanced t) = q
      generalize p'.arguments argument' (p'.advanced t') = q'
      rintro (⟨hrest, hu⟩ | hfault)
      · exact .ok ⟨hfirst, hrest⟩ hu
      · exact .error hfault
    · exact .ok ⟨hfirst, trivial⟩ ht
    · exact .error (hnext.fault .missingClosingParen)
    · exact .error (hnext.fault .malformedArguments)
  · exact .error hfault
termination_by p.remaining s

theorem together_argumentsOrNone (hp : p.Alike p') (h : p.Paired p' argument argument') :
    Together p p' (Expr.AllAlike (p.stream.SamePlace p'.stream)) (p.argumentsOrNone argument)
      (p'.argumentsOrNone argument') := by
  intro s s' hs
  have hcurrent := sameToken_current p p' hs
  unfold argumentsOrNone
  rw [← (hcurrent.alike hp).1]
  split
  · exact .ok trivial hs
  · exact together_arguments hp h s s' hs

/-! ## Rules -/

theorem together_prefixRule (hp : p.Alike p') (he : ∀ power, p.Paired p' (expr power) (expr' power))
    (h : p.SameToken p' t t') (rule : PrefixRule) :
    Together p p' (p.SameTree p') (rule.apply p expr t) (rule.apply p' expr' t') := by
  cases rule with
  | operand => exact together_settle (sameResult_operandOf hp h)
  | endOfInput => exact together_settle (sameResult_nothingBefore hp h)
  | sign =>
    have hpower : p.grammar.operandPower t.kind = p'.grammar.operandPower t'.kind := by
      rw [hp.grammar, (h.alike hp).1]
    refine (together_settle (sameResult_operatorOf hp h)).bind ?_
    rintro operator _ rfl
    rw [hpower]
    exact (he _).together.bind fun x x' hx => together_pure ⟨rfl, hx, h.samePlace⟩
  | group =>
    exact (he _).together.bind fun x x' hx => (together_close hp).bind fun _ _ _ =>
      together_pure hx

/-- Alike operands make alike nodes. -/
theorem sameTree_node {right right' : Expr} (hl : p.SameTree p' left left')
    (hr : p.SameTree p' right right') (h : p.SameToken p' t t') (rule : InfixRule)
    (operator : Operator) :
    p.SameTree p' (rule.node operator left right t.start)
      (rule.node operator left' right' t'.start) := by
  cases rule <;> first | exact ⟨rfl, hl, hr⟩ | exact ⟨rfl, hl, hr, h.samePlace⟩

theorem together_infixRule (hp : p.Alike p') (he : ∀ power, p.Paired p' (expr power) (expr' power))
    (hl : p.SameTree p' left left') (h : p.SameToken p' t t') (rule : InfixRule) :
    Together p p' (p.SameTree p') (rule.apply p expr left t) (rule.apply p' expr' left' t') := by
  have hpower : p.grammar.power t.kind = p'.grammar.power t'.kind := by
    rw [hp.grammar, (h.alike hp).1]
  cases hq : rule.rightPower? (p.grammar.power t.kind) with
  | some q =>
    rw [InfixRule.apply_eq hq, InfixRule.apply_eq (hpower ▸ hq)]
    refine (together_settle (sameResult_operatorOf hp h)).bind ?_
    rintro operator _ rfl
    exact (he q).together.bind fun right right' hr => together_pure (sameTree_node hl hr h _ _)
  | none =>
    cases rule <;> cases hq
    refine (together_settle (sameResult_callable hl h)).bind fun _ _ _ => ?_
    refine (together_argumentsOrNone hp (he _)).bind fun es es' hes => ?_
    exact (together_close hp).bind fun _ _ _ => together_pure ⟨hl, hes, h.samePlace⟩

/-! ## Expressions -/

theorem together_beginning (hp : p.Alike p') (he : ∀ power, p.Paired p' (expr power) (expr' power))
    (power : Power) :
    Together p p' (p.SameTree p') (p.beginning expr power) (p'.beginning expr' power) := by
  intro s s' hs
  have hcurrent := sameToken_current p p' hs
  have hread := cursor_advanced_congr hp hs
  unfold beginning
  dsimp only
  rw [← hp.grammar, ← (hcurrent.alike hp).1]
  split
  · exact .error (hcurrent.fault .noPrefixRule)
  · exact together_prefixRule hp he hcurrent _ _ _ (by exact hread)

theorem together_continuation (hp : p.Alike p')
    (he : ∀ power, p.Paired p' (expr power) (expr' power)) (power : Power)
    (hl : p.SameTree p' left left') :
    Together p p' (p.SameTree p') (p.continuation expr power left)
      (p'.continuation expr' power left') := by
  intro s s' hs
  have hcurrent := sameToken_current p p' hs
  have hread := cursor_advanced_congr hp hs
  unfold continuation
  dsimp only
  rw [← hp.grammar, ← (hcurrent.alike hp).1]
  split
  · exact .error (hcurrent.fault .noInfixRule)
  · exact together_infixRule hp he hl hcurrent _ _ _ (by exact hread)

theorem together_climb (hp : p.Alike p') (he : ∀ power, p.Paired p' (expr power) (expr' power))
    {left left' : Expr} (hl : p.SameTree p' left left') (s s' : Progress)
    (hs : s.cursor = s'.cursor) :
    SameEnd p.stream p'.stream (p.SameTree p') (p.climb expr power left s)
      (p'.climb expr' power left' s') := by
  have hcurrent := sameToken_current p p' hs
  rw [climb_eq (fun q => (he q).forward), climb_eq (fun q => (he q).forward'), ← hp.grammar,
    ← (hcurrent.alike hp).1]
  split
  · have hstep := together_continuation hp he power hl s s' hs
    cases hc : p.continuation expr power left s with
    | error fault u =>
      rw [hc] at hstep
      revert hstep
      generalize p'.continuation expr' power left' s' = r'
      rintro (_ | hfault)
      exact .error hfault
    | ok whole u =>
      have hless := remaining_continuation_lt (fun q => (he q).forward) hc
      rw [hc] at hstep
      revert hstep
      generalize p'.continuation expr' power left' s' = r'
      rintro (⟨hwhole, hu⟩ | _)
      exact together_climb hp he hwhole _ _ hu
  · exact .ok hl hs
termination_by p.remaining s

/-- Expressions are read alike. -/
theorem together_expr (hp : p.Alike p') (room : Nat) (power : Power) :
    Together p p' (p.SameTree p') (p.expr room power) (p'.expr room power) := by
  induction room generalizing power with
  | zero =>
    intro s s' hs
    have hfault := (sameToken_current p p' hs).fault (.nestingTooDeep p.maxDepth)
    refine .error ?_
    rwa [hp.maxDepth] at hfault ⊢
  | succ room ih =>
    have he : ∀ power, p.Paired p' (p.expr room power) (p'.expr room power) := fun q =>
      ⟨ih q, forward_expr _ _ _, forward_expr _ _ _⟩
    exact together_deeper.bind fun _ _ _ => (together_beginning hp he power).bind fun _ _ hl =>
      Together.bind (together_climb hp he hl) fun _ _ hw => together_leave.bind fun _ _ _ =>
        together_pure hw

/-- Two alike streams are parsed alike. -/
theorem sameResult_run (hp : p.Alike p') :
    p.stream.SameResult p'.stream (p.SameTree p') p.run.result p'.run.result := by
  have hwhole := together_expr hp p.maxDepth .default .start .start rfl
  simp only [run, whole_start, exprHere_start, ← hp.maxDepth]
  revert hwhole
  generalize p.expr p.maxDepth .default .start = r
  generalize p'.expr p.maxDepth .default .start = r'
  rintro (⟨he, ht⟩ | hfault)
  · rename_i e e' t t'
    have hcurrent := sameToken_current p p' ht
    dsimp only
    rw [← (hcurrent.alike hp).1]
    by_cases hend : (p.current t).kind = .eof
    · simp only [hend, if_true]
      exact he
    · simp only [hend, if_false]
      exact hcurrent.fault .unusedTokens
  · exact hfault

end Steps

end Parser

/-! ## Lists of tokens -/

section Lists

variable {w w' : Stream} {ts ts' : List Token} {g : Grammar} {maxDepth : Nat}

/-- What holds of the tokens of two rows one by one, and of the tokens that mark the end, holds of
the tokens of their streams. -/
theorem Stream.forall_token_of_tokens {Q : Token → Token → Prop}
    (h : List.Forall₂ Q w.tokens w'.tokens) :
    w.body.size = w'.body.size ∧ ∀ i, Q (w.token i) (w'.token i) := by
  have hsize : w.body.size = w'.body.size := by simpa using h.length_eq
  refine ⟨hsize, fun i => ?_⟩
  have hw' := w'.getElem?_tokens_min i
  rw [← hsize] at hw'
  obtain ⟨hi, ht⟩ := List.getElem?_eq_some_iff.mp (w.getElem?_tokens_min i)
  obtain ⟨hi', hu⟩ := List.getElem?_eq_some_iff.mp hw'
  have hget := h.get hi hi'
  rwa [List.get_eq_getElem, List.get_eq_getElem, ht, hu] at hget

theorem Stream.exists_closing_eq (tokens : Array Token) : ∃ place, closing tokens = .eof place := by
  unfold closing
  split <;> exact ⟨_, rfl⟩

theorem Stream.forall_token_ofList {Q : Token → Token → Prop}
    (hkind : ∀ {t u}, Q t u → t.kind = u.kind) (hend : ∀ place place', Q (.eof place) (.eof place'))
    (h : List.Forall₂ Q ts ts') :
    (ofList ts).body.size = (ofList ts').body.size ∧
      ∀ i, Q ((ofList ts).token i) ((ofList ts').token i) := by
  apply forall_token_of_tokens
  rcases List.eq_nil_or_concat ts with rfl | ⟨row, t, rfl⟩
  · cases h
    exact .cons (hend _ _) .nil
  rcases List.eq_nil_or_concat ts' with rfl | ⟨row', t', rfl⟩
  · exact absurd h.length_eq (by simp)
  rw [List.concat_eq_append, List.concat_eq_append] at h ⊢
  have hlength : row.length = row'.length := by simpa using h.length_eq
  have hlast := List.forall₂_drop_append _ row' [t'] h
  rw [← hlength, List.drop_left] at hlast
  have hk := hkind (List.forall₂_cons.mp hlast).1
  by_cases heof : t.kind = .eof
  · rwa [ofList_concat heof, ofList_concat (hk ▸ heof)]
  · have heof' : t'.kind ≠ .eof := hk ▸ heof
    obtain ⟨place, hplace⟩ := exists_closing_eq (row ++ [t]).toArray
    obtain ⟨place', hplace'⟩ := exists_closing_eq (row' ++ [t']).toArray
    simp only [ofList, tokens, List.back?_toArray, List.getLast?_concat, heof, heof', dite_false,
      hplace, hplace']
    exact List.rel_append h (.cons (hend _ _) .nil)

theorem Stream.alike_ofList (h : List.Forall₂ Token.Alike ts ts') :
    (ofList ts).Alike (ofList ts') := by
  obtain ⟨hsize, htoken⟩ := forall_token_ofList (fun ht => ht.1) (fun _ _ => ⟨rfl, nofun⟩) h
  exact ⟨hsize, htoken⟩

theorem Stream.token_ofList {i : Nat} {t : Token} (h : ts[i]? = some t) :
    (ofList ts).token i = t := by
  obtain ⟨hi, -⟩ := List.getElem?_eq_some_iff.mp h
  have hrow := prefix_tokens_ofList ts
  have hle := hrow.length_le
  rw [length_tokens] at hle
  have htoken := getElem?_tokens (w := ofList ts) (i := i) (by omega)
  obtain ⟨rest, hrest⟩ := hrow
  rw [← hrest, List.getElem?_append_left hi, h] at htoken
  exact (Option.some.inj htoken).symm

/-- The first stray character of the one row and that of the other have the same index. -/
theorem find?_error_alike (h : List.Forall₂ Token.Alike ts ts') :
    (ts.find? (·.kind = .error) = none ∧ ts'.find? (·.kind = .error) = none) ∨
      ∃ (i : Nat) (t t' : Token), (ts.find? (·.kind = .error) = some t ∧ ts[i]? = some t) ∧
        ts'.find? (·.kind = .error) = some t' ∧ ts'[i]? = some t' := by
  induction h with
  | nil => exact .inl ⟨rfl, rfl⟩
  | @cons t t' ts ts' ht _ ih =>
    by_cases herror : t.kind = .error
    · refine .inr ⟨0, t, t', ⟨?_, rfl⟩, ?_, rfl⟩
      · simp [herror]
      · simp [← ht.1, herror]
    · have hnot : t'.kind ≠ .error := ht.1 ▸ herror
      simp only [List.find?_cons, herror, hnot, decide_false]
      exact ih.imp_right fun ⟨i, hi⟩ => ⟨i + 1, hi⟩

/-- Two alike rows are parsed alike. -/
theorem sameResult_parseTokens (h : List.Forall₂ Token.Alike ts ts') :
    (Stream.ofList ts).SameResult (.ofList ts')
      (Expr.Alike ((Stream.ofList ts).SamePlace (.ofList ts')))
      (parseTokens g maxDepth ts) (parseTokens g maxDepth ts') := by
  unfold parseTokens runTokens
  rcases find?_error_alike h with ⟨hnone, hnone'⟩ | ⟨i, t, t', ⟨hfind, ht⟩, hfind', ht'⟩
  · rw [hnone, hnone']
    exact Parser.sameResult_run ⟨rfl, rfl, Stream.alike_ofList h⟩
  · rw [hfind, hfind']
    refine ⟨_, i, .unrecognisedToken, ?_, ?_⟩
    · rw [Stream.token_ofList ht]
    · rw [Stream.token_ofList ht']

end Lists

/-! ## Rows of the same words -/

/-- A result without its places: a tree with all of them put to the origin, or what a fault says. -/
def withoutPlaces : Except Fault Expr → Except Fault.Cause Expr
  | .ok e => .ok e.placeless
  | .error fault => .error fault.cause

/-- The kinds and the texts of the tokens, without their places. -/
def words (ts : List Token) : List (TokenKind × String) := ts.map fun t => (t.kind, t.text)

namespace Expr

variable {P : Position → Position → Prop}

mutual

theorem Alike.placeless_eq : ∀ {e e' : Expr}, e.Alike P e' → e.placeless = e'.placeless
  | empty, empty, _ => rfl
  | number _ _, number _ _, h => by rw [placeless, placeless, h.1]
  | identifier _ _, identifier _ _, h => by rw [placeless, placeless, h.1]
  | unary _ x _, unary _ x' _, h => by rw [placeless, placeless, h.1, h.2.1.placeless_eq]
  | binary .., binary .., h => by
      rw [placeless, placeless, h.1, h.2.1.placeless_eq, h.2.2.1.placeless_eq]
  | juxtaposed .., juxtaposed .., h => by
      rw [placeless, placeless, h.1, h.2.1.placeless_eq, h.2.2.placeless_eq]
  | call .., call .., h => by
      rw [placeless, placeless, h.1.placeless_eq, h.2.1.allPlaceless_eq]

theorem AllAlike.allPlaceless_eq : ∀ {es es' : List Expr}, AllAlike P es es' →
    allPlaceless es = allPlaceless es'
  | [], [], _ => rfl
  | _ :: _, _ :: _, h => by
      rw [allPlaceless, allPlaceless, h.1.placeless_eq, h.2.allPlaceless_eq]

end

end Expr

section Words

variable {w w' : Stream} {ts ts' : List Token} {g : Grammar} {maxDepth : Nat}

theorem forall₂_of_words_eq (h : words ts = words ts') :
    List.Forall₂ (fun t u : Token => t.kind = u.kind ∧ t.text = u.text) ts ts' := by
  have heq : List.Forall₂ Eq (words ts) (words ts') := by rw [h, List.forall₂_eq_eq_eq]
  rw [words, words, List.forall₂_map_left_iff, List.forall₂_map_right_iff] at heq
  exact heq.imp fun t u hwords => Prod.mk.inj hwords

theorem withoutPlaces_eq_of_sameResult {P : Position → Position → Prop} {r r' : Except Fault Expr}
    (htoken : ∀ i, (w.token i).kind = (w'.token i).kind ∧ (w.token i).text = (w'.token i).text)
    (h : w.SameResult w' (Expr.Alike P) r r') : withoutPlaces r = withoutPlaces r' := by
  cases r <;> cases r' <;> first | exact h.elim | skip
  · obtain ⟨complaint, i, hc, rfl, rfl⟩ := h
    exact congrArg Except.error (hc.eq_of_text (htoken i).1 (htoken i).2)
  · exact congrArg Except.ok h.placeless_eq

/-- Rows of the same words are parsed to the same result, places apart. -/
theorem withoutPlaces_parseTokens_congr (h : words ts = words ts') :
    withoutPlaces (parseTokens g maxDepth ts) = withoutPlaces (parseTokens g maxDepth ts') := by
  have hwords := forall₂_of_words_eq h
  have htoken := Stream.forall_token_ofList (fun ht => ht.1) (fun _ _ => ⟨rfl, rfl⟩) hwords
  exact withoutPlaces_eq_of_sameResult htoken.2
    (sameResult_parseTokens (hwords.imp fun _ _ ht => ⟨ht.1, fun _ => ht.2⟩))

end Words

end Precedence

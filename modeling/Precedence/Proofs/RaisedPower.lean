import Precedence.Proofs.Shows
import Precedence.Proofs.Paths

/-!
# What a stronger power leaves

An expression read at a stronger power is the same expression stopped earlier. The power is looked
at in one place alone, where the loop of continuations asks whether to go on, and what a rule does
depends neither on it nor on the record of the rules applied before. So two steps from states that
differ in their records end alike (`Agree`), and the loop at the weaker power goes through the state
in which the loop at the stronger one ends (`ends_climb_stronger`). If that one fails, so does this
one in the same place; if it ends, the other goes on from there, and each turn puts what there is on
the left of what it makes (`exprHere_stronger`).
-/

namespace Precedence

/-- The node is reached from the root over left edges alone, or is the root. -/
def Expr.OnLeftSpine (m e : Expr) : Prop :=
  ∃ path : List Edge, (∀ edge ∈ path, edge.isLeft = true) ∧ e.descend path = some m

theorem Expr.OnLeftSpine.refl (e : Expr) : e.OnLeftSpine e := ⟨[], nofun, descend_nil⟩

theorem Expr.OnLeftSpine.of_child? {m c e : Expr} {edge : Edge} (h : m.OnLeftSpine c)
    (hc : e.child? edge = some c) (hedge : edge.isLeft = true) : m.OnLeftSpine e := by
  obtain ⟨path, hpath, hm⟩ := h
  exact ⟨edge :: path, List.forall_mem_cons.mpr ⟨hedge, hpath⟩,
    (descend_of_child? hc).trans hm⟩

namespace Parser

variable {α β : Type} {p : Parser} {s s' : Progress}

/-! ## Records do not matter -/

/-- The two states differ in their records alone. -/
structure Abreast (s s' : Progress) : Prop where
  cursor : s.cursor = s'.cursor
  depth : s.depth = s'.depth

/-- The two steps end alike, in states that differ in their records alone. -/
inductive SameStop : EStateM.Result Fault Progress α → EStateM.Result Fault Progress α → Prop
  | ok {a t t'} (h : Abreast t t') : SameStop (.ok a t) (.ok a t')
  | error {fault t t'} (h : Abreast t t') : SameStop (.error fault t) (.error fault t')

theorem SameStop.exists_ok {a : α} {t : Progress} {r : EStateM.Result Fault Progress α}
    (h : SameStop (.ok a t) r) : ∃ t', r = .ok a t' ∧ Abreast t t' := by
  cases h with
  | ok ht => exact ⟨_, rfl, ht⟩

theorem SameStop.exists_error {fault : Fault} {t : Progress}
    {r : EStateM.Result Fault Progress α} (h : SameStop (.error fault t) r) :
    ∃ t', r = .error fault t' ∧ Abreast t t' := by
  cases h with
  | error ht => exact ⟨_, rfl, ht⟩

/-- Taken in states that differ in their records alone, the two steps end alike. -/
def Agree (m m' : ParseM α) : Prop := ∀ s s', Abreast s s' → SameStop (m s) (m' s')

theorem Abreast.refl (s : Progress) : Abreast s s := ⟨rfl, rfl⟩

theorem Abreast.current_eq (h : Abreast s s') : p.current s = p.current s' := by
  rw [current, current, h.cursor]

theorem Abreast.advanced (h : Abreast s s') : Abreast (p.advanced s) (p.advanced s') := by
  unfold Parser.advanced
  rw [h.cursor]
  split
  · exact ⟨rfl, h.depth⟩
  · exact h

theorem Agree.bind {m m' : ParseM α} {f f' : α → ParseM β} (h : Agree m m')
    (hf : ∀ a, Agree (f a) (f' a)) : Agree (m >>= f) (m' >>= f') := by
  intro s s' hs
  have hm := h s s' hs
  simp only [Bind.bind, EStateM.bind]
  revert hm
  generalize m s = r
  generalize m' s' = r'
  rintro (ht | ht)
  · exact hf _ _ _ ht
  · exact .error ht

theorem agree_pure (a : α) : Agree (pure a) (pure a) := fun _ _ hs => .ok hs

theorem agree_settle (decided : Except Fault α) : Agree (settle decided) (settle decided) := by
  intro s s' hs
  cases decided
  · exact .error hs
  · exact .ok hs

theorem agree_close (p : Parser) : Agree p.close p.close := by
  intro s s' hs
  unfold close expect unclosed
  rw [← hs.current_eq]
  split
  · unfold advance
    rw [← hs.current_eq]
    exact .ok hs.advanced
  · exact .error hs

section Steps

variable {argument : ParseM Expr} {expr : Power → ParseM Expr} {power : Power}

theorem agree_arguments (hf : Forward argument) (h : Agree argument argument) (s s' : Progress)
    (hs : Abreast s s') : SameStop (p.arguments argument s) (p.arguments argument s') := by
  rw [arguments_eq hf, arguments_eq hf, malformed, malformed, ← hs.current_eq]
  split
  · exact .error hs
  have hfirst := h s s' hs
  have hle := hf s
  revert hfirst hle
  generalize argument s = r
  generalize argument s' = r'
  rintro (ht | ht) hle
  · rename_i first t t'
    have hcurrent : p.current t = p.current t' := ht.current_eq
    dsimp only
    rw [unclosed, unclosed, malformed, malformed, ← hcurrent]
    split
    · rename_i hcomma
      have hlt : t.cursor < p.stream.body.size := cursor_lt_of_kind_ne (by rw [hcomma]; decide)
      have hread : p.remaining (p.advanced t) < p.remaining t :=
        remaining_advanced_lt (Nat.lt_succ_of_lt hlt)
      have hback : p.remaining t ≤ p.remaining s := Nat.sub_le_sub_left (hle _ _ rfl) _
      have hrest := agree_arguments hf h _ _ (ht.advanced (p := p))
      revert hrest
      generalize p.arguments argument (p.advanced t) = q
      generalize p.arguments argument (p.advanced t') = q'
      rintro (hu | hu)
      · exact .ok hu
      · exact .error hu
    · exact .ok ht
    · exact .error ht
    · exact .error ht
  · exact .error ht
termination_by p.remaining s

theorem agree_argumentsOrNone (hf : Forward argument) (h : Agree argument argument) :
    Agree (p.argumentsOrNone argument) (p.argumentsOrNone argument) := by
  intro s s' hs
  unfold argumentsOrNone
  rw [← hs.current_eq]
  split
  · exact .ok hs
  · exact agree_arguments hf h s s' hs

theorem agree_prefixRule (h : ∀ power, Agree (expr power) (expr power)) (rule : PrefixRule)
    (token : Token) : Agree (rule.apply p expr token) (rule.apply p expr token) := by
  cases rule with
  | operand => exact agree_settle _
  | endOfInput => exact agree_settle _
  | sign => exact (agree_settle _).bind fun _ => (h _).bind fun _ => agree_pure _
  | group => exact (h _).bind fun _ => (agree_close p).bind fun _ => agree_pure _

theorem agree_infixRule (hf : ∀ power, Forward (expr power))
    (h : ∀ power, Agree (expr power) (expr power)) (rule : InfixRule) (left : Expr)
    (token : Token) : Agree (rule.apply p expr left token) (rule.apply p expr left token) := by
  cases hq : rule.rightPower? (p.grammar.power token.kind) with
  | some q =>
    rw [InfixRule.apply_eq hq]
    exact (agree_settle _).bind fun _ => (h _).bind fun _ => agree_pure _
  | none =>
    cases rule <;> cases hq
    exact (agree_settle _).bind fun _ => (agree_argumentsOrNone (hf _) (h _)).bind fun _ =>
      (agree_close p).bind fun _ => agree_pure _

/-- A beginning does not depend on the power: it is only put on record. -/
theorem agree_beginning (h : ∀ power, Agree (expr power) (expr power)) (power power' : Power) :
    Agree (p.beginning expr power) (p.beginning expr power') := by
  intro s s' hs
  unfold beginning
  dsimp only
  rw [← hs.current_eq]
  split
  · exact .error hs.advanced
  · have hread := hs.advanced (p := p)
    exact agree_prefixRule h _ _ _ _ ⟨hread.cursor, hread.depth⟩

/-- Nor does a continuation. -/
theorem agree_continuation (hf : ∀ power, Forward (expr power))
    (h : ∀ power, Agree (expr power) (expr power)) (power power' : Power) (left : Expr) :
    Agree (p.continuation expr power left) (p.continuation expr power' left) := by
  intro s s' hs
  unfold continuation
  dsimp only
  rw [← hs.current_eq]
  split
  · exact .error hs.advanced
  · have hread := hs.advanced (p := p)
    exact agree_infixRule hf h _ _ _ _ _ ⟨hread.cursor, hread.depth⟩

/-! ## The loop at two powers -/

variable {weak strong : Power} {left : Expr}

/-- Where the loop at the stronger power ends, the loop at the weaker one, begun in a state that
differs in its record alone, goes on; where the one fails, so does the other. -/
theorem ends_climb_stronger (hf : ∀ power, Forward (expr power))
    (h : ∀ power, Agree (expr power) (expr power)) (hle : weak ≤ strong) (hs : Abreast s s') :
    Ends (p.climb expr strong left) s
      (fun m t => ¬ strong < p.grammar.power (p.current t).kind ∧ ∃ t', Abreast t t' ∧
        p.climb expr weak left s' = p.climb expr weak m t')
      fun fault t => ∃ t', Abreast t t' ∧ p.climb expr weak left s' = .error fault t' := by
  -- What is kept from turn to turn: the weaker loop has still to do what it does from here.
  refine ends_climb hf (fun _ _ hgone hnot => ⟨hnot, hgone⟩) ?_ ⟨s', hs, rfl⟩
  rintro m t ⟨t', ht, hgone⟩ hlt
  have hturn := climb_eq (p := p) hf weak m t'
  have hlt' : weak < p.grammar.power (p.current t).kind := Nat.lt_of_le_of_lt hle hlt
  rw [← ht.current_eq, if_pos hlt', ← hgone] at hturn
  have hstep := agree_continuation (p := p) hf h strong weak m t t' ht
  cases hc : p.continuation expr strong m t with
  | error fault u =>
    obtain ⟨u', hu', hu⟩ := (hc ▸ hstep).exists_error
    rw [hu'] at hturn
    exact (ends_of_error hc).mpr ⟨u', hu, hturn⟩
  | ok whole u =>
    obtain ⟨u', hu', hu⟩ := (hc ▸ hstep).exists_ok
    rw [hu'] at hturn
    exact (ends_of_ok hc).mpr ⟨u', hu, hturn⟩

theorem agree_climb (hf : ∀ power, Forward (expr power))
    (h : ∀ power, Agree (expr power) (expr power)) (power : Power) (left : Expr) :
    Agree (p.climb expr power left) (p.climb expr power left) := by
  intro s s' hs
  have hloop : Ends (p.climb expr power left) s _ _ :=
    ends_climb_stronger hf h (Nat.le_refl power.rank) hs
  cases hc : p.climb expr power left s with
  | error fault t =>
    obtain ⟨t', ht, hgone⟩ := (ends_of_error hc).mp hloop
    rw [hgone]
    exact .error ht
  | ok m t =>
    obtain ⟨hnot, t', ht, hgone⟩ := (ends_of_ok hc).mp hloop
    rw [hgone, climb_eq hf, ← ht.current_eq, if_neg hnot]
    exact .ok ht

end Steps

/-- Expressions are read alike. -/
theorem agree_expr (p : Parser) (room : Nat) (power : Power) :
    Agree (p.expr room power) (p.expr room power) := by
  have hdeeper : Agree deeper deeper := fun _ _ hs => .ok ⟨hs.cursor, congrArg (· + 1) hs.depth⟩
  have hleave : Agree leave leave := fun _ _ hs => .ok ⟨hs.cursor, congrArg (· - 1) hs.depth⟩
  induction room generalizing power with
  | zero =>
    intro s s' hs
    rw [expr, refuse, refuse, hs.current_eq]
    exact .error hs
  | succ room ih =>
    have hf := forward_expr p room
    exact hdeeper.bind fun _ => (agree_beginning ih power power).bind fun left =>
      (agree_climb hf ih power left).bind fun _ => hleave.bind fun _ => agree_pure _

/-! ## Growing to the left -/

section Growth

variable {expr : Power → ParseM Expr} {power : Power} {left whole m : Expr} {t : Progress}

/-- What a rule makes of an expression has the expression on its left. -/
theorem child?_of_infixRule {rule : InfixRule} {token : Token}
    (h : rule.apply p expr left token s = .ok whole t) :
    ∃ edge : Edge, edge.isLeft = true ∧ whole.child? edge = some left := by
  cases rule with
  | leftAssociative | rightAssociative | juxtaposition =>
    obtain ⟨operator, _, _, h⟩ := bind_eq_ok.mp h
    obtain ⟨right, _, _, h⟩ := bind_eq_ok.mp h
    cases h
    exact ⟨.left, rfl, rfl⟩
  | call =>
    obtain ⟨_, _, _, h⟩ := bind_eq_ok.mp h
    obtain ⟨arguments, _, _, h⟩ := bind_eq_ok.mp h
    obtain ⟨_, _, _, h⟩ := bind_eq_ok.mp h
    cases h
    exact ⟨.callee, rfl, rfl⟩

theorem child?_of_continuation (h : p.continuation expr power left s = .ok whole t) :
    ∃ edge : Edge, edge.isLeft = true ∧ whole.child? edge = some left := by
  unfold continuation at h
  dsimp only at h
  split at h
  · cases h
  · exact child?_of_infixRule h

/-- Turn by turn what was there comes to stand further down on the left. -/
theorem onLeftSpine_of_climb (hf : ∀ power, Forward (expr power))
    (h : p.climb expr power left s = .ok whole t) : left.OnLeftSpine whole := by
  have hspine : Ends (p.climb expr power left) s (fun e _ => left.OnLeftSpine e)
      fun _ _ => True := by
    refine ends_climb hf (fun _ _ he _ => he) ?_ (.refl left)
    intro e u (he : left.OnLeftSpine e) _
    cases hc : p.continuation expr power e u with
    | error => exact (ends_of_error hc).mpr trivial
    | ok next v =>
      obtain ⟨edge, hedge, hchild⟩ := child?_of_continuation hc
      exact (ends_of_ok hc).mpr (he.of_child? hchild hedge)
  exact (ends_of_ok h).mp hspine

end Growth

/-! ## Expressions at two powers -/

/-- An expression but for the account of its depth. -/
theorem expr_succ (p : Parser) (room : Nat) (power : Power) (s : Progress) :
    p.expr (room + 1) power s =
      match p.phrase room power { s with depth := s.depth + 1 } with
      | .ok whole t => .ok whole { t with depth := t.depth - 1 }
      | .error fault t => .error fault t := by
  simp only [expr, phrase, bind, EStateM.bind, deeper]
  cases p.beginning (p.expr room) power { s with depth := s.depth + 1 } with
  | error fault t => rfl
  | ok left t => dsimp only; cases p.climb (p.expr room) power left t <;> rfl

/-- The step `m'` outlasts `m`: it fails in the same place if that one fails, and otherwise what it
makes has on its left spine what that one made. -/
def Outlasts (m' m : ParseM Expr) (s : Progress) : Prop :=
  Ends m s
    (fun e t => ∀ e' t', m' s = .ok e' t' → e.OnLeftSpine e' ∧ t.cursor ≤ t'.cursor)
    fun fault t => ∃ t', m' s = .error fault t' ∧ Abreast t t'

section Powers

variable {room : Nat} {weak strong : Power}

theorem outlasts_phrase (p : Parser) (room : Nat) (hle : weak ≤ strong) (s : Progress) :
    Outlasts (p.phrase room weak) (p.phrase room strong) s := by
  have hf := forward_expr p room
  have hbegin := agree_beginning (p := p) (agree_expr p room) strong weak s s (.refl s)
  unfold Outlasts
  rw [ends_phrase]
  simp only [phrase, bind, EStateM.bind]
  cases hb : p.beginning (p.expr room) strong s with
  | error fault t =>
    obtain ⟨t', ht', ht⟩ := (hb ▸ hbegin).exists_error
    rw [ends_of_error hb, ht']
    exact ⟨t', rfl, ht⟩
  | ok left t =>
    obtain ⟨t', ht', ht⟩ := (hb ▸ hbegin).exists_ok
    rw [ends_of_ok hb, ht']
    refine (ends_climb_stronger hf (agree_expr p room) hle ht).imp ?_ ?_
    · rintro m u ⟨-, u', hu, hgone⟩ e v he
      have hrest := hgone.symm.trans he
      exact ⟨onLeftSpine_of_climb hf hrest, hu.cursor ▸ forward_climb hf _ _ _ _ _ hrest⟩
    · exact fun fault u ⟨u', hu, hgone⟩ => ⟨u', hgone, hu⟩

theorem outlasts_expr (p : Parser) (room : Nat) (hle : weak ≤ strong) (s : Progress) :
    Outlasts (p.expr room weak) (p.expr room strong) s := by
  cases room with
  | zero => exact ⟨s, rfl, .refl s⟩
  | succ room =>
    rw [Outlasts, ends_expr_succ]
    refine (outlasts_phrase p room hle _).imp ?_ ?_
    · intro e t he e' t' he'
      rw [expr_succ] at he'
      split at he'
      · rename_i whole u hphrase
        cases he'
        obtain ⟨hspine, hcursor⟩ := he _ _ hphrase
        exact ⟨hspine, hcursor⟩
      · cases he'
    · rintro fault t ⟨t', hphrase, ht⟩
      exact ⟨t', by rw [expr_succ, hphrase], ht⟩

/-- Read at a stronger power, an expression only stops earlier: where it fails, it fails at the
weaker one too, with the same fault and in the same place, and where there is an expression at the
weaker one, that at the stronger one is on its left spine and ends no later. -/
theorem exprHere_stronger (p : Parser) (s : Progress) (h : weak ≤ strong) :
    (∀ fault t, p.exprHere strong s = .error fault t →
      ∃ t', p.exprHere weak s = .error fault t' ∧ t'.cursor = t.cursor ∧ t'.depth = t.depth) ∧
    ∀ n u, p.exprHere weak s = .ok n u →
      ∃ m t, p.exprHere strong s = .ok m t ∧ m.OnLeftSpine n ∧ t.cursor ≤ u.cursor := by
  have houtlasts := outlasts_expr p (p.room s) h s
  refine ⟨fun fault t hstrong => ?_, fun n u hweak => ?_⟩
  · obtain ⟨t', ht', ht⟩ := (ends_of_error hstrong).mp houtlasts
    exact ⟨t', ht', ht.cursor.symm, ht.depth.symm⟩
  · cases hstrong : p.exprHere strong s with
    | error fault t =>
      obtain ⟨t', ht', -⟩ := (ends_of_error hstrong).mp houtlasts
      cases hweak.symm.trans ht'
    | ok m t => exact ⟨m, t, rfl, (ends_of_ok hstrong).mp houtlasts n u hweak⟩

/-- A parser of the tokens of `f(x)*y+z`. -/
def sumParser : Parser :=
  ⟨.arithmetic, .ofList
    [.inLine .identifier "f" 1, .inLine .openParen "(" 2, .inLine .identifier "x" 3,
      .inLine .closeParen ")" 4, .inLine .star "*" 5, .inLine .identifier "y" 6,
      .inLine .plus "+" 7, .inLine .identifier "z" 8], 4⟩

/-- The first operand of the sum. -/
def firstProduct : Expr :=
  .binary .multiply (.call (.identifier "f" ⟨1, 1⟩) [.identifier "x" ⟨1, 3⟩] ⟨1, 2⟩)
    (.identifier "y" ⟨1, 6⟩) ⟨1, 5⟩

/-- Of a sum, what binds tighter than a sum is its first operand. -/
theorem exprHere_firstProduct :
    Power.default ≤ Power.additive ∧ ∃ t u,
      sumParser.exprHere .default .start =
        .ok (.binary .add firstProduct (.identifier "z" ⟨1, 8⟩) ⟨1, 7⟩) u ∧ u.cursor = 8 ∧
      sumParser.exprHere .additive .start = .ok firstProduct t ∧ t.cursor = 6 ∧
      firstProduct.OnLeftSpine (.binary .add firstProduct (.identifier "z" ⟨1, 8⟩) ⟨1, 7⟩) := by
  have hle : Power.default ≤ Power.additive := by decide
  obtain ⟨u, hsum, hu⟩ : ∃ u, sumParser.exprHere .default .start =
      .ok (.binary .add firstProduct (.identifier "z" ⟨1, 8⟩) ⟨1, 7⟩) u ∧ u.cursor = 8 :=
    ⟨_, by cbv, by cbv⟩
  obtain ⟨t, hproduct, ht⟩ : ∃ t, sumParser.exprHere .additive .start = .ok firstProduct t ∧
      t.cursor = 6 := ⟨_, by cbv, by cbv⟩
  obtain ⟨m, t', hm, hspine, -⟩ := (exprHere_stronger sumParser .start hle).2 _ _ hsum
  cases hm.symm.trans hproduct
  exact ⟨hle, t, u, hsum, hu, hproduct, ht, hspine⟩

end Powers

end Parser

end Precedence

import Precedence.Proofs.Shows

/-!
# Parses cut short

A parse under a limit goes step by step like the parse under a larger one until it either ends like
it or stands at a token that lies too deep and is refused (`CutShort`). The parse under the larger
limit goes on from there, and since no step ever goes back, whether it succeeds or fails
(`Onward`), it stops at that token or behind it.

Both are said of steps, and carry over from the parts of a step to the whole (`Onward.bind`,
`CutShort.bind`). So each construct of the parser needs one lemma of either sort, and that for
expressions is an induction on the room.
-/

namespace Precedence

namespace Parser

variable {α β : Type} {p : Parser} {s : Progress}

/-! ## Going on, in success and in failure -/

/-- Taken in the state `s`, the step stops with `n` tokens read or more. -/
def Reaches (m : ParseM α) (s : Progress) (n : Nat) : Prop :=
  Ends m s (fun _ t => n ≤ t.cursor) fun _ t => n ≤ t.cursor

/-- A step that never goes back, even where it fails. -/
def Onward (m : ParseM α) : Prop := ∀ s, Reaches m s s.cursor

theorem reaches_congr {m m' : ParseM α} {t : Progress} {n : Nat} (h : m s = m' t) :
    Reaches m s n ↔ Reaches m' t n := by
  simp only [Reaches, Ends, h]

theorem Reaches.mono {m : ParseM α} {n k : Nat} (h : Reaches m s n) (hk : k ≤ n) :
    Reaches m s k :=
  h.imp (fun _ _ ht => Nat.le_trans hk ht) fun _ _ ht => Nat.le_trans hk ht

theorem Reaches.bind {m : ParseM α} {f : α → ParseM β} {n : Nat} (h : Reaches m s n)
    (hf : ∀ a, Onward (f a)) : Reaches (m >>= f) s n :=
  ends_bind.mpr (h.imp_good fun a t ht => (hf a t).mono ht)

theorem Onward.bind {m : ParseM α} {f : α → ParseM β} (h : Onward m) (hf : ∀ a, Onward (f a)) :
    Onward (m >>= f) :=
  fun s => (h s).bind hf

theorem onward_pure (a : α) : Onward (pure a) := fun _ => Nat.le_refl _

theorem onward_settle (decided : Except Fault α) : Onward (settle decided) := by
  intro s
  cases decided <;> exact Nat.le_refl _

theorem onward_deeper : Onward deeper := fun _ => Nat.le_refl _

theorem onward_leave : Onward leave := fun _ => Nat.le_refl _

theorem onward_close (p : Parser) : Onward p.close := by
  intro s
  rw [Reaches, ends_close]
  split
  · exact cursor_le_advanced p s
  · exact Nat.le_refl _

theorem onward_arguments {argument : ParseM Expr} (hf : Forward argument)
    (h : Onward argument) : Onward (p.arguments argument) := by
  intro s
  refine ends_arguments hf (by exact Nat.le_refl _) (fun _ t (ht : s.cursor ≤ t.cursor) _ => ht)
    fun done t ht _ => (h t).imp ?_ fun _ _ hu => Nat.le_trans ht hu
  intro e u hu
  have hle := Nat.le_trans ht hu
  split
  · exact Nat.le_trans hle (cursor_le_advanced p u)
  all_goals exact hle

theorem onward_argumentsOrNone {argument : ParseM Expr} (hf : Forward argument)
    (h : Onward argument) : Onward (p.argumentsOrNone argument) := by
  intro s
  rw [Reaches, ends_argumentsOrNone]
  split
  · exact Nat.le_refl _
  · exact onward_arguments hf h s

theorem onward_prefixRule (rule : PrefixRule) {expr : Power → ParseM Expr}
    (he : ∀ power, Onward (expr power)) (token : Token) : Onward (rule.apply p expr token) := by
  cases rule with
  | operand => exact onward_settle _
  | endOfInput => exact onward_settle _
  | sign => exact (onward_settle _).bind fun _ => (he _).bind fun _ => onward_pure _
  | group => exact (he _).bind fun _ => (onward_close p).bind fun _ => onward_pure _

theorem onward_infixRule (rule : InfixRule) {expr : Power → ParseM Expr}
    (hf : ∀ power, Forward (expr power)) (he : ∀ power, Onward (expr power)) (left : Expr)
    (token : Token) : Onward (rule.apply p expr left token) := by
  cases hq : rule.rightPower? (p.grammar.power token.kind) with
  | some q =>
    rw [InfixRule.apply_eq hq]
    exact (onward_settle _).bind fun _ => (he _).bind fun _ => onward_pure _
  | none =>
    cases rule <;> cases hq
    exact (onward_settle _).bind fun _ => (onward_argumentsOrNone (hf _) (he _)).bind fun _ =>
      (onward_close p).bind fun _ => onward_pure _

theorem onward_beginning {expr : Power → ParseM Expr} (he : ∀ power, Onward (expr power))
    (power : Power) : Onward (p.beginning expr power) := by
  intro s
  have hread := cursor_le_advanced p s
  rw [Reaches, ends_beginning]
  split
  · exact hread
  · exact (onward_prefixRule _ he _ _).mono hread

theorem onward_continuation {expr : Power → ParseM Expr} (hf : ∀ power, Forward (expr power))
    (he : ∀ power, Onward (expr power)) (power : Power) (left : Expr) :
    Onward (p.continuation expr power left) := by
  intro s
  have hread := cursor_le_advanced p s
  rw [Reaches, ends_continuation]
  split
  · exact hread
  · exact (onward_infixRule _ hf he _ _ _).mono hread

theorem onward_climb {expr : Power → ParseM Expr} (hf : ∀ power, Forward (expr power))
    (he : ∀ power, Onward (expr power)) (power : Power) (left : Expr) :
    Onward (p.climb expr power left) := by
  intro s
  exact ends_climb hf (fun _ t (ht : s.cursor ≤ t.cursor) _ => ht)
    (fun _ t ht _ => (onward_continuation hf he _ _ t).mono ht) (Nat.le_refl _)

/-- Reading an expression never goes back, even where it fails. -/
theorem onward_expr (p : Parser) (room : Nat) (power : Power) : Onward (p.expr room power) := by
  induction room generalizing power with
  | zero => exact fun s => Nat.le_refl _
  | succ room ih =>
    exact onward_deeper.bind fun _ => (onward_beginning ih power).bind fun _ =>
      (onward_climb (forward_expr p room) ih power _).bind fun _ => onward_leave.bind fun _ =>
        onward_pure _

/-! ## Two parses of one stream -/

/-- The fault of a token that lies too deep. -/
def tooDeep (p : Parser) (s : Progress) : Fault := ⟨.nestingTooDeep p.maxDepth, (p.current s).start⟩

/-- The step `m` ends like `m'`, or it is refused a token under the limit; then `m'` stops at that
token or behind it. -/
def CutShort (p : Parser) (m m' : ParseM α) : Prop :=
  ∀ s, m s = m' s ∨ ∃ t, m s = .error (p.tooDeep t) t ∧ Reaches m' s t.cursor

theorem CutShort.refl (m : ParseM α) : p.CutShort m m := fun _ => .inl rfl

theorem CutShort.bind {m m' : ParseM α} {f f' : α → ParseM β} (h : p.CutShort m m')
    (hf : ∀ a, p.CutShort (f a) (f' a)) (ho : ∀ a, Onward (f' a)) :
    p.CutShort (m >>= f) (m' >>= f') := by
  intro s
  rcases h s with heq | ⟨t, ht, hreach⟩
  · cases hm : m' s with
    | error fault t =>
      left
      rw [bind_of_error (heq.trans hm), bind_of_error hm]
    | ok a t =>
      have hstep := bind_of_ok (f := f) (heq.trans hm)
      rcases hf a t with heq' | ⟨u, hu, hreach⟩
      · left
        rw [hstep, bind_of_ok hm, heq']
      · exact .inr ⟨u, hstep.trans hu, ends_bind.mpr ((ends_of_ok hm).mpr hreach)⟩
  · exact .inr ⟨t, bind_of_error ht, hreach.bind ho⟩

/-- The same parser under another limit. -/
def withLimit (p : Parser) (maxDepth : Nat) : Parser := { p with maxDepth := maxDepth }

@[simp] theorem current_withLimit (d : Nat) : (p.withLimit d).current = p.current := rfl

@[simp] theorem advanced_withLimit (d : Nat) : (p.withLimit d).advanced = p.advanced := rfl

@[simp] theorem grammar_withLimit (d : Nat) : (p.withLimit d).grammar = p.grammar := rfl

/-- Two ways to read an expression, of which one is cut short of the other. -/
structure Coupled (p : Parser) (m m' : ParseM Expr) : Prop where
  cut : p.CutShort m m'
  forward : Forward m
  forward' : Forward m'
  onward' : Onward m'

section Coupled

variable {d n : Nat} {argument argument' : ParseM Expr} {expr expr' : Power → ParseM Expr}

theorem Reaches.arguments (hf : Forward argument) (ho : Onward argument)
    (hd : ¬ (p.current s).isOneOf [.comma, .closeParen] = true) (h : Reaches argument s n) :
    Reaches (p.arguments argument) s n := by
  rw [Reaches, ends_arguments_iff hf, if_neg hd]
  refine h.imp_good fun e u hu => ?_
  split
  · exact (onward_arguments hf ho _).mono (Nat.le_trans hu (cursor_le_advanced p u))
  all_goals exact hu

theorem cutShort_arguments (h : p.Coupled argument argument') (s : Progress) :
    p.arguments argument s = (p.withLimit d).arguments argument' s ∨
      ∃ t, p.arguments argument s = .error (p.tooDeep t) t ∧
        Reaches ((p.withLimit d).arguments argument') s t.cursor := by
  by_cases hd : (p.current s).isOneOf [.comma, .closeParen] = true
  · left
    rw [arguments_eq h.forward, arguments_eq h.forward', current_withLimit, if_pos hd, if_pos hd]
    rfl
  rcases h.cut s with heq | ⟨t, ht, hreach⟩
  · have hround := arguments_eq (p := p) h.forward s
    have hround' := arguments_eq (p := p.withLimit d) h.forward' s
    rw [current_withLimit, if_neg hd] at hround'
    rw [if_neg hd, heq] at hround
    cases hm : argument' s with
    | error fault t =>
      left
      rw [hround, hround', hm]
    | ok first t =>
      rw [hm] at hround hround'
      cases hk : (p.current t).kind with
      | comma =>
        have hlt : t.cursor < p.stream.body.size := cursor_lt_of_kind_ne (hk.trans_ne nofun)
        have hread := remaining_advanced_lt (p := p) (Nat.lt_succ_of_lt hlt)
        have hle : p.remaining t ≤ p.remaining s :=
          Nat.sub_le_sub_left (h.forward' _ _ _ hm) _
        simp only [advanced_withLimit, hk] at hround hround'
        rcases cutShort_arguments h (p.advanced t) with hrest | ⟨u, hu, hreach⟩
        · left
          rw [hround, hround', hrest]
        · refine .inr ⟨u, by rw [hround, hu], ?_⟩
          rw [Reaches, ends_arguments_iff h.forward', current_withLimit, if_neg hd, ends_of_ok hm]
          simp only [hk]
          exact hreach
      | _ =>
        simp only [hk] at hround hround'
        exact .inl (hround.trans hround'.symm)
  · refine .inr ⟨t, ?_, hreach.arguments h.forward' h.onward' hd⟩
    rw [arguments_eq h.forward, if_neg hd, ht]
termination_by p.remaining s

theorem cutShort_argumentsOrNone (h : p.Coupled argument argument') :
    p.CutShort (p.argumentsOrNone argument) ((p.withLimit d).argumentsOrNone argument') := by
  intro s
  by_cases hk : (p.current s).kind = .closeParen
  · exact .inl ((if_pos hk).trans (if_pos hk).symm)
  · have hsome : p.argumentsOrNone argument s = p.arguments argument s := if_neg hk
    have hsome' : (p.withLimit d).argumentsOrNone argument' s =
      (p.withLimit d).arguments argument' s := if_neg hk
    simp only [hsome, hsome', reaches_congr hsome']
    exact cutShort_arguments h s

theorem cutShort_prefixRule (rule : PrefixRule)
    (h : ∀ power, p.Coupled (expr power) (expr' power)) (token : Token) :
    p.CutShort (rule.apply p expr token) (rule.apply (p.withLimit d) expr' token) := by
  cases rule with
  | operand => exact .refl _
  | endOfInput => exact .refl _
  | sign =>
    refine (CutShort.refl _).bind (fun _ => (h _).cut.bind (fun _ => .refl _) ?_) ?_
    · exact fun _ => onward_pure _
    · exact fun _ => (h _).onward'.bind fun _ => onward_pure _
  | group =>
    refine (h _).cut.bind (fun _ => .refl _) ?_
    exact fun _ => (onward_close p).bind fun _ => onward_pure _

theorem cutShort_infixRule (rule : InfixRule)
    (h : ∀ power, p.Coupled (expr power) (expr' power)) (left : Expr) (token : Token) :
    p.CutShort (rule.apply p expr left token) (rule.apply (p.withLimit d) expr' left token) := by
  cases hq : rule.rightPower? (p.grammar.power token.kind) with
  | some q =>
    rw [InfixRule.apply_eq hq, InfixRule.apply_eq (p := p.withLimit d) hq]
    refine (CutShort.refl _).bind (fun _ => (h _).cut.bind (fun _ => .refl _) ?_) ?_
    · exact fun _ => onward_pure _
    · exact fun _ => (h _).onward'.bind fun _ => onward_pure _
  | none =>
    cases rule <;> cases hq
    have hclose : ∀ es, Onward (do let _ ← p.close; pure (Expr.call left es token.start)) :=
      fun _ => (onward_close p).bind fun _ => onward_pure _
    refine (CutShort.refl _).bind (fun _ => ?_) fun _ => ?_
    · exact (cutShort_argumentsOrNone (h _)).bind (fun _ => .refl _) hclose
    · exact (onward_argumentsOrNone (h _).forward' (h _).onward').bind hclose

theorem cutShort_beginning (h : ∀ power, p.Coupled (expr power) (expr' power)) (power : Power) :
    p.CutShort (p.beginning expr power) ((p.withLimit d).beginning expr' power) := by
  intro s
  simp only [Reaches, ends_beginning]
  simp only [beginning, current_withLimit, grammar_withLimit, advanced_withLimit]
  cases p.grammar.prefixRule? (p.current s).kind with
  | none => exact .inl rfl
  | some rule => exact cutShort_prefixRule rule h _ _

theorem cutShort_continuation (h : ∀ power, p.Coupled (expr power) (expr' power)) (power : Power)
    (left : Expr) :
    p.CutShort (p.continuation expr power left)
      ((p.withLimit d).continuation expr' power left) := by
  intro s
  simp only [Reaches, ends_continuation]
  simp only [continuation, current_withLimit, grammar_withLimit, advanced_withLimit]
  cases p.grammar.infixRule? (p.current s).kind with
  | none => exact .inl rfl
  | some rule => exact cutShort_infixRule rule h _ _ _

theorem cutShort_climb (h : ∀ power, p.Coupled (expr power) (expr' power)) (power : Power)
    (left : Expr) (s : Progress) :
    p.climb expr power left s = (p.withLimit d).climb expr' power left s ∨
      ∃ t, p.climb expr power left s = .error (p.tooDeep t) t ∧
        Reaches ((p.withLimit d).climb expr' power left) s t.cursor := by
  have hf := fun power => (h power).forward
  have hf' := fun power => (h power).forward'
  have hround := climb_eq (p := p) hf power left s
  have hround' := climb_eq (p := p.withLimit d) hf' power left s
  rw [current_withLimit, grammar_withLimit] at hround'
  by_cases hlt : power < p.grammar.power (p.current s).kind
  · rw [if_pos hlt] at hround hround'
    rcases cutShort_continuation (d := d) h power left s with heq | ⟨t, ht, hreach⟩
    · rw [heq] at hround
      cases hm : (p.withLimit d).continuation expr' power left s with
      | error fault t =>
        left
        rw [hround, hround', hm]
      | ok whole t =>
        have hread : p.remaining t < p.remaining s :=
          remaining_continuation_lt (p := p.withLimit d) hf' hm
        have hrest : p.climb expr power left s = p.climb expr power whole t := by
          rw [hround, hm]
        have hrest' : (p.withLimit d).climb expr' power left s =
            (p.withLimit d).climb expr' power whole t := by rw [hround', hm]
        simp only [hrest, hrest', reaches_congr hrest']
        exact cutShort_climb h power whole t
    · refine .inr ⟨t, by rw [hround, ht], ?_⟩
      rw [Reaches, ends_climb_iff hf', current_withLimit, grammar_withLimit, if_pos hlt]
      exact hreach.imp_good fun whole u hu =>
        (onward_climb hf' (fun q => (h q).onward') _ _ u).mono hu
  · left
    rw [hround, hround', if_neg hlt, if_neg hlt]
termination_by p.remaining s

/-- With less room an expression is read as with more, or a token is refused. -/
theorem cutShort_expr (p : Parser) (d : Nat) {room room' : Nat} (h : room ≤ room') (power : Power) :
    p.CutShort (p.expr room power) ((p.withLimit d).expr room' power) := by
  induction room generalizing room' power with
  | zero => exact fun s => .inr ⟨s, rfl, onward_expr _ _ _ s⟩
  | succ room ih =>
    obtain ⟨room', rfl⟩ : ∃ r, room' = r + 1 := ⟨room' - 1, by omega⟩
    have hcoupled : ∀ power, p.Coupled (p.expr room power) ((p.withLimit d).expr room' power) :=
      fun power => ⟨ih (by omega) power, forward_expr _ _ _, forward_expr _ _ _, onward_expr _ _ _⟩
    have hend : ∀ whole : Expr, Onward (do leave; pure whole) :=
      fun _ => onward_leave.bind fun _ => onward_pure _
    have hclimb := fun left => onward_climb (p := p.withLimit d)
      (fun q => (hcoupled q).forward') (fun q => (hcoupled q).onward') power left
    have hbegin := onward_beginning (p := p.withLimit d) (fun q => (hcoupled q).onward') power
    refine (CutShort.refl _).bind (fun _ => ?_) fun _ => hbegin.bind fun left =>
      (hclimb left).bind hend
    refine (cutShort_beginning hcoupled power).bind (fun left => ?_) fun left =>
      (hclimb left).bind hend
    exact CutShort.bind (cutShort_climb hcoupled power left) (fun _ => .refl _) hend

end Coupled

end Parser

end Precedence

import Precedence.Parser.Climb

/-!
# A parse never goes back

Where a step of a parse succeeds, it has read no fewer tokens than before (`Forward`). This is
kept by sequencing and holds of every rule whose operands are read by steps that have it, hence,
by recursion on the room, of `expr`.

The two loops of the parser check that a round has read something before they go round again. The
check never fails. A round of `arguments` reads a comma, which cannot stand behind the end of the
text. A round of `climb` reads its own token, or stands behind the end, where the token that marks
the end means no operator and no parenthesis follows to close a call: nothing continues there.
`arguments_eq` and `climb_eq` are the loops without the check.
-/

namespace Precedence

namespace Parser

/-- A step of a parse that never goes back. -/
def Forward {α : Type} (m : ParseM α) : Prop :=
  ∀ s a t, m s = .ok a t → s.cursor ≤ t.cursor

theorem bind_of_ok {α β : Type} {x : ParseM α} {f : α → ParseM β} {s t : Progress} {a : α}
    (h : x s = .ok a t) : (x >>= f) s = f a t := by
  simp only [bind, EStateM.bind, h]

theorem bind_of_error {α β : Type} {x : ParseM α} {f : α → ParseM β} {s t : Progress}
    {fault : Fault} (h : x s = .error fault t) : (x >>= f) s = .error fault t := by
  simp only [bind, EStateM.bind, h]

/-- A sequence succeeds where both of its parts do. -/
theorem bind_eq_ok {α β : Type} {x : ParseM α} {f : α → ParseM β} {s : Progress} {b : β}
    {u : Progress} : (x >>= f) s = .ok b u ↔ ∃ a t, x s = .ok a t ∧ f a t = .ok b u := by
  simp only [bind, EStateM.bind]
  cases x s with
  | ok a t => simp [and_assoc]
  | error fault t => simp

theorem Forward.bind {α β : Type} {x : ParseM α} {f : α → ParseM β} (hx : Forward x)
    (hf : ∀ a, Forward (f a)) : Forward (x >>= f) := by
  intro s b u h
  obtain ⟨a, t, h1, h2⟩ := bind_eq_ok.mp h
  exact Nat.le_trans (hx _ _ _ h1) (hf a _ _ _ h2)

theorem forward_pure {α : Type} (a : α) : Forward (pure a) := by
  intro s b t h
  cases h
  exact Nat.le_refl _

theorem forward_settle {α : Type} (decided : Except Fault α) : Forward (settle decided) := by
  intro s a t h
  unfold settle at h
  split at h <;> cases h
  exact Nat.le_refl _

theorem forward_deeper : Forward deeper := by
  intro s _ t h
  cases h
  exact Nat.le_refl _

theorem forward_leave : Forward leave := by
  intro s _ t h
  cases h
  exact Nat.le_refl _

/-! ## Reading a token -/

theorem cursor_le_advanced (p : Parser) (s : Progress) : s.cursor ≤ (p.advanced s).cursor := by
  unfold advanced
  split
  · exact Nat.le_succ _
  · exact Nat.le_refl _

/-- A token that does not mark the end of the text stands before the end. -/
theorem cursor_lt_of_kind_ne {p : Parser} {s : Progress} (h : (p.current s).kind ≠ .eof) :
    s.cursor < p.stream.body.size := by
  apply Nat.lt_of_not_le
  intro hle
  exact h (Stream.kind_token_of_size_le hle)

theorem forward_close (p : Parser) : Forward p.close := by
  intro s token t h
  unfold close expect at h
  split at h
  · cases h
    exact cursor_le_advanced p s
  · cases h

/-- Behind the end of the text nothing is closed. -/
theorem close_ne_ok {p : Parser} {s : Progress} (hs : p.stream.body.size ≤ s.cursor)
    (token : Token) (t : Progress) : p.close s ≠ .ok token t := by
  have hk : (p.current s).kind = .eof := Stream.kind_token_of_size_le hs
  simp [close, expect, hk]

/-! ## The arguments of a call -/

theorem forward_arguments {p : Parser} {argument : ParseM Expr} (ha : Forward argument) :
    Forward (p.arguments argument) := by
  intro s es t h
  fun_induction arguments p argument s generalizing es t with
  | case1 | case2 | case3 | case7 | case8 => cases h
  | case4 s _ first t' hfirst _ _ _ _ _ hv =>
    rename_i ih
    cases h
    exact Nat.le_trans (ha _ _ _ hfirst) (Nat.le_trans (cursor_le_advanced p t') (ih _ _ hv))
  | case5 s _ first t' hfirst =>
    cases h
    exact Nat.le_trans (ha _ _ _ hfirst) (cursor_le_advanced p t')
  | case6 s _ first t' hfirst =>
    cases h
    exact ha _ _ _ hfirst

/-- The arguments of a call, said without the check for progress. -/
theorem arguments_eq {p : Parser} {argument : ParseM Expr} (ha : Forward argument)
    (s : Progress) :
    p.arguments argument s =
      if (p.current s).isOneOf [.comma, .closeParen] then .error (p.malformed s) s
      else match argument s with
        | .error fault t => .error fault t
        | .ok first t =>
          match (p.current t).kind with
          | .comma =>
            match p.arguments argument (p.advanced t) with
            | .error fault v => .error fault v
            | .ok others v => .ok (first :: others) v
          | .closeParen => .ok [first] t
          | .eof => .error (p.unclosed t) t
          | _ => .error (p.malformed t) t := by
  rw [arguments]
  cases hfirst : argument s with
  | error fault t => rfl
  | ok first t =>
    cases hk : (p.current t).kind with
    | comma =>
      have hlt : t.cursor < p.stream.body.size := cursor_lt_of_kind_ne (by rw [hk]; decide)
      have hread : p.remaining (p.advanced t) < p.remaining t :=
        remaining_advanced_lt (Nat.lt_succ_of_lt hlt)
      have hle : p.remaining t ≤ p.remaining s := Nat.sub_le_sub_left (ha _ _ _ hfirst) _
      simp only [hk]
      exact congrArg (ite _ _) (dif_pos (Nat.lt_of_lt_of_le hread hle))
    | _ => simp only [hk]

theorem forward_argumentsOrNone {p : Parser} {argument : ParseM Expr} (ha : Forward argument) :
    Forward (p.argumentsOrNone argument) := by
  intro s es t h
  unfold argumentsOrNone at h
  split at h
  · cases h
    exact Nat.le_refl _
  · exact forward_arguments ha _ _ _ h

/-! ## Rules -/

theorem forward_prefixRule (rule : PrefixRule) {p : Parser} {expr : Power → ParseM Expr}
    (he : ∀ power, Forward (expr power)) (token : Token) : Forward (rule.apply p expr token) := by
  cases rule with
  | operand => exact forward_settle _
  | endOfInput => exact forward_settle _
  | sign => exact (forward_settle _).bind fun _ => (he _).bind fun _ => forward_pure _
  | group => exact (he _).bind fun _ => (forward_close p).bind fun _ => forward_pure _

theorem forward_infixRule (rule : InfixRule) {p : Parser} {expr : Power → ParseM Expr}
    (he : ∀ power, Forward (expr power)) (left : Expr) (token : Token) :
    Forward (rule.apply p expr left token) := by
  cases rule with
  | leftAssociative => exact (forward_settle _).bind fun _ => (he _).bind fun _ => forward_pure _
  | rightAssociative => exact (forward_settle _).bind fun _ => (he _).bind fun _ => forward_pure _
  | juxtaposition => exact (forward_settle _).bind fun _ => (he _).bind fun _ => forward_pure _
  | call =>
    exact (forward_settle _).bind fun _ => (forward_argumentsOrNone (he _)).bind fun _ =>
      (forward_close p).bind fun _ => forward_pure _

/-- Behind the end of the text no rule continues an expression. -/
theorem infixRule_ne_ok (rule : InfixRule) {p : Parser} {expr : Power → ParseM Expr}
    (he : ∀ power, Forward (expr power)) {token : Token} (hk : token.kind = .eof) (left : Expr)
    {s : Progress} (hs : p.stream.body.size ≤ s.cursor) (whole : Expr) (t : Progress) :
    rule.apply p expr left token s ≠ .ok whole t := by
  have hop : operatorOf token = .error ⟨.noInfixRule token.text, token.start⟩ := by
    simp [operatorOf, Operator.ofKind?, hk]
  intro h
  cases rule with
  | leftAssociative | rightAssociative | juxtaposition =>
    obtain ⟨_, _, h, _⟩ := bind_eq_ok.mp h
    simp [settle, hop] at h
  | call =>
    obtain ⟨_, t1, h1, h⟩ := bind_eq_ok.mp h
    obtain ⟨_, t2, h2, h⟩ := bind_eq_ok.mp h
    obtain ⟨_, t3, h3, _⟩ := bind_eq_ok.mp h
    have hle : s.cursor ≤ t2.cursor :=
      Nat.le_trans (forward_settle _ _ _ _ h1) (forward_argumentsOrNone (he _) _ _ _ h2)
    exact close_ne_ok (Nat.le_trans hs hle) _ _ h3

/-! ## Beginning and going on -/

theorem forward_beginning {p : Parser} {expr : Power → ParseM Expr}
    (he : ∀ power, Forward (expr power)) (power : Power) : Forward (p.beginning expr power) := by
  intro s e t h
  unfold beginning at h
  dsimp only at h
  split at h
  · cases h
  · have hle := forward_prefixRule _ he _ _ _ _ h
    exact Nat.le_trans (cursor_le_advanced p s) hle

theorem forward_continuation {p : Parser} {expr : Power → ParseM Expr}
    (he : ∀ power, Forward (expr power)) (power : Power) (left : Expr) :
    Forward (p.continuation expr power left) := by
  intro s e t h
  unfold continuation at h
  dsimp only at h
  split at h
  · cases h
  · have hle := forward_infixRule _ he _ _ _ _ _ h
    exact Nat.le_trans (cursor_le_advanced p s) hle

/-- What continues an expression reads at least its own token. -/
theorem remaining_continuation_lt {p : Parser} {expr : Power → ParseM Expr}
    (he : ∀ power, Forward (expr power)) {power : Power} {left whole : Expr} {s t : Progress}
    (h : p.continuation expr power left s = .ok whole t) : p.remaining t < p.remaining s := by
  unfold continuation at h
  dsimp only at h
  split at h
  · cases h
  · rename_i rule _
    by_cases hs : s.cursor < p.stream.size
    · have hread := remaining_advanced_lt hs
      have hle := forward_infixRule rule he left _ _ _ _ h
      simp only [noted] at hle
      simp only [remaining] at hread ⊢
      omega
    · have hbody : p.stream.body.size ≤ s.cursor := by
        simp only [Stream.size] at hs
        omega
      have hnext : p.stream.body.size ≤ (p.advanced s).cursor :=
        Nat.le_trans hbody (cursor_le_advanced p s)
      have hk : (p.current s).kind = .eof := Stream.kind_token_of_size_le hbody
      exact absurd h (infixRule_ne_ok rule he hk left (by exact hnext) whole t)

/-- Going on with an expression, said without the check for progress. -/
theorem climb_eq {p : Parser} {expr : Power → ParseM Expr} (he : ∀ power, Forward (expr power))
    (power : Power) (left : Expr) (s : Progress) :
    p.climb expr power left s =
      if power < p.grammar.power (p.current s).kind then
        match p.continuation expr power left s with
        | .error fault t => .error fault t
        | .ok whole t => p.climb expr power whole t
      else .ok left s := by
  rw [climb]
  cases h : p.continuation expr power left s with
  | error fault t => rfl
  | ok whole t => simp only [dif_pos (remaining_continuation_lt he h)]

theorem forward_climb {p : Parser} {expr : Power → ParseM Expr}
    (he : ∀ power, Forward (expr power)) (power : Power) (left : Expr) :
    Forward (p.climb expr power left) := by
  intro s e t h
  fun_induction climb p expr power left s with
  | case1 => cases h
  | case2 left s _ whole u hu _ ih =>
    exact Nat.le_trans (forward_continuation he _ _ _ _ _ hu) (ih h)
  | case3 left s _ whole u hu =>
    cases h
    exact forward_continuation he _ _ _ _ _ hu
  | case4 =>
    cases h
    exact Nat.le_refl _

/-- Reading an expression never goes back. -/
theorem forward_expr (p : Parser) (room : Nat) (power : Power) : Forward (p.expr room power) := by
  induction room generalizing power with
  | zero =>
    intro s e t h
    cases h
  | succ room ih =>
    exact forward_deeper.bind fun _ => (forward_beginning ih power).bind fun _ =>
      (forward_climb ih power _).bind fun _ => forward_leave.bind fun _ => forward_pure _

end Parser

end Precedence

import Precedence.Proofs.CutShort

/-!
# The depth of a parse

Only an expression that succeeds ends the level it began. So a step that reads expressions leaves
the depth as it was where it succeeds, and where it fails the levels begun inside it stay begun
(`Keeps`). That carries over from the parts of a step to the whole, as going on does (`Onward`).

Since the depth is kept, the room that is left for an operand can be read off the state in which the
operand begins. So an expression is one recursion, in which nothing is handed down but the power:
the limit is held against the depth, a level is begun, the rules read their operands in the same
way, and the level is ended (`exprHere_eq`). The loops in it need no check for progress either
(`climb_eq`, `arguments_eq`).
-/

namespace Precedence

namespace Parser

variable {α β : Type} {p : Parser} {s t : Progress} {d room : Nat} {power : Power}

/-! ## Levels that are ended -/

/-- The parse is at the depth and in the stream. -/
def Stands (p : Parser) (d : Nat) (s : Progress) : Prop :=
  s.depth = d ∧ s.cursor ≤ p.stream.size

/-- The parse is at the depth or deeper, within the limit and in the stream. -/
def Stopped (p : Parser) (d : Nat) (s : Progress) : Prop :=
  d ≤ s.depth ∧ s.depth ≤ p.maxDepth ∧ s.cursor ≤ p.stream.size

/-- Taken at the depth, the step ends well at the same depth, or fails there or deeper. -/
def Keeps (p : Parser) (d : Nat) (m : ParseM α) : Prop :=
  ∀ s, p.Stands d s → Ends m s (fun _ t => p.Stands d t) fun _ t => p.Stopped d t

theorem Stands.stopped (h : p.Stands d s) (hd : d ≤ p.maxDepth) : p.Stopped d s := by
  obtain ⟨rfl, hcursor⟩ := h
  exact ⟨Nat.le_refl _, hd, hcursor⟩

theorem cursor_advanced_le (h : s.cursor ≤ p.stream.size) :
    (p.advanced s).cursor ≤ p.stream.size := by
  rw [cursor_advanced_eq]
  split
  · assumption
  · exact h

theorem depth_advanced (p : Parser) (s : Progress) : (p.advanced s).depth = s.depth := by
  unfold advanced
  split <;> rfl

theorem Stands.advanced (h : p.Stands d s) : p.Stands d (p.advanced s) :=
  ⟨(depth_advanced p s).trans h.1, cursor_advanced_le h.2⟩

theorem Keeps.bind {m : ParseM α} {f : α → ParseM β} (h : p.Keeps d m)
    (hf : ∀ a, p.Keeps d (f a)) : p.Keeps d (m >>= f) :=
  fun s hs => ends_bind.mpr ((h s hs).imp_good fun a t ht => hf a t ht)

theorem keeps_pure (a : α) : p.Keeps d (pure a) := fun _ hs => hs

section Constructs

variable (hd : d ≤ p.maxDepth)

include hd

theorem keeps_settle (decided : Except Fault α) : p.Keeps d (settle decided) := fun _ hs =>
  ends_settle_of (fun _ _ => hs) fun _ => hs.stopped hd

theorem keeps_close : p.Keeps d p.close := by
  intro s hs
  rw [ends_close]
  split
  · exact hs.advanced
  · exact hs.stopped hd

theorem keeps_arguments {argument : ParseM Expr} (hf : Forward argument)
    (h : p.Keeps d argument) : p.Keeps d (p.argumentsOrNone argument) := by
  intro s hs
  rw [ends_argumentsOrNone]
  split
  · exact hs
  · refine ends_arguments hf (by exact hs) (fun _ t (ht : p.Stands d t) _ => ht.stopped hd)
      fun done t ht _ => (h t ht).imp_good fun e u hu => ?_
    split
    · exact hu.advanced
    · exact hu
    all_goals exact hu.stopped hd

theorem keeps_prefixRule (rule : PrefixRule) {expr : Power → ParseM Expr}
    (he : ∀ power, p.Keeps d (expr power)) (token : Token) :
    p.Keeps d (rule.apply p expr token) := by
  cases rule with
  | operand => exact keeps_settle hd _
  | endOfInput => exact keeps_settle hd _
  | sign => exact (keeps_settle hd _).bind fun _ => (he _).bind fun _ => keeps_pure _
  | group => exact (he _).bind fun _ => (keeps_close hd).bind fun _ => keeps_pure _

theorem keeps_infixRule (rule : InfixRule) {expr : Power → ParseM Expr}
    (hf : ∀ power, Forward (expr power)) (he : ∀ power, p.Keeps d (expr power)) (left : Expr)
    (token : Token) : p.Keeps d (rule.apply p expr left token) := by
  cases hq : rule.rightPower? (p.grammar.power token.kind) with
  | some q =>
    rw [InfixRule.apply_eq hq]
    exact (keeps_settle hd _).bind fun _ => (he _).bind fun _ => keeps_pure _
  | none =>
    cases rule <;> cases hq
    exact (keeps_settle hd _).bind fun _ => (keeps_arguments hd (hf _) (he _)).bind fun _ =>
      (keeps_close hd).bind fun _ => keeps_pure _

theorem keeps_beginning {expr : Power → ParseM Expr} (he : ∀ power, p.Keeps d (expr power))
    (power : Power) : p.Keeps d (p.beginning expr power) := by
  intro s hs
  rw [ends_beginning]
  split
  · exact hs.advanced.stopped hd
  · exact keeps_prefixRule hd _ he _ _ hs.advanced

theorem keeps_continuation {expr : Power → ParseM Expr} (hf : ∀ power, Forward (expr power))
    (he : ∀ power, p.Keeps d (expr power)) (power : Power) (left : Expr) :
    p.Keeps d (p.continuation expr power left) := by
  intro s hs
  rw [ends_continuation]
  split
  · exact hs.advanced.stopped hd
  · exact keeps_infixRule hd _ hf he _ _ _ hs.advanced

theorem keeps_climb {expr : Power → ParseM Expr} (hf : ∀ power, Forward (expr power))
    (he : ∀ power, p.Keeps d (expr power)) (power : Power) (left : Expr) :
    p.Keeps d (p.climb expr power left) := fun _ hs =>
  ends_climb hf (fun _ _ ht _ => ht) (fun left t ht _ => keeps_continuation hd hf he power left t ht)
    hs

end Constructs

/-- By induction on the room: an expression begins a level and ends it, if it succeeds. -/
theorem keeps_expr (hd : d + room ≤ p.maxDepth) (power : Power) :
    p.Keeps d (p.expr room power) := by
  induction room generalizing d power with
  | zero => exact fun s hs => ends_expr_zero.mpr (hs.stopped hd)
  | succ room ih =>
    intro s hs
    have hinner : ∀ power, p.Keeps (d + 1) (p.expr room power) := ih (by omega)
    rw [ends_expr_succ]
    have hdeeper : p.Stands (d + 1) { s with depth := s.depth + 1 } :=
      ⟨congrArg (· + 1) hs.1, hs.2⟩
    have hd : d + 1 ≤ p.maxDepth := by omega
    have hphrase : p.Keeps (d + 1) (p.phrase room power) :=
      (keeps_beginning hd hinner power).bind
        (keeps_climb hd (forward_expr p room) hinner power)
    refine (hphrase _ hdeeper).imp ?_ ?_
    · intro e t ht
      exact ⟨by rw [ht.1, Nat.add_sub_cancel], ht.2⟩
    · intro fault t ht
      exact ⟨Nat.le_of_succ_le ht.1, ht.2⟩

theorem keeps_exprHere (hd : d ≤ p.maxDepth) (power : Power) : p.Keeps d (p.exprHere power) := by
  rintro s ⟨rfl, hs⟩
  have hroom : s.depth + p.room s ≤ p.maxDepth := by
    rw [room]
    omega
  exact keeps_expr hroom power s ⟨rfl, hs⟩

theorem forward_exprHere (p : Parser) (power : Power) : Forward (p.exprHere power) :=
  fun s => forward_expr p (p.room s) power s

/-! ## One recursion -/

/-- Taken at the depth, the two steps do the same. -/
def Coincide (p : Parser) (d : Nat) (m m' : ParseM α) : Prop := ∀ s, p.Stands d s → m s = m' s

theorem Coincide.refl (m : ParseM α) : p.Coincide d m m := fun _ _ => rfl

/-- The second step of a sequence is taken at the depth as well, since the first keeps it. -/
theorem Coincide.bind {m m' : ParseM α} {f f' : α → ParseM β} (h : p.Coincide d m m')
    (hkeeps : p.Keeps d m) (hf : ∀ a, p.Coincide d (f a) (f' a)) :
    p.Coincide d (m >>= f) (m' >>= f') := by
  intro s hs
  have hsame := h s hs
  cases hm : m s with
  | error fault t => rw [bind_of_error hm, bind_of_error (hsame ▸ hm)]
  | ok a t =>
    have ht : p.Stands d t := (ends_of_ok hm).mp (hkeeps s hs)
    rw [bind_of_ok hm, bind_of_ok (hsame ▸ hm)]
    exact hf a t ht

/-- Two ways to read an expression that do the same at the depth, and keep it. -/
structure Exchangeable (p : Parser) (d : Nat) (m m' : ParseM Expr) : Prop where
  coincide : p.Coincide d m m'
  keeps : p.Keeps d m
  forward : Forward m
  forward' : Forward m'

section Exchange

variable {argument argument' : ParseM Expr} {expr expr' : Power → ParseM Expr}

theorem coincide_arguments (h : p.Exchangeable d argument argument') (s : Progress)
    (hs : p.Stands d s) : p.arguments argument s = p.arguments argument' s := by
  rw [arguments_eq h.forward, arguments_eq h.forward', ← h.coincide s hs]
  have hend := h.keeps s hs
  cases hfirst : argument s with
  | error fault t => rfl
  | ok first t =>
    have ht : p.Stands d t := (ends_of_ok hfirst).mp hend
    cases hk : (p.current t).kind with
    | comma =>
      have hlt : t.cursor < p.stream.body.size := cursor_lt_of_kind_ne (hk.trans_ne nofun)
      have hread : p.remaining (p.advanced t) < p.remaining t :=
        remaining_advanced_lt (Nat.lt_succ_of_lt hlt)
      have hle : p.remaining t ≤ p.remaining s :=
        Nat.sub_le_sub_left (h.forward _ _ _ hfirst) _
      simp only [hk, coincide_arguments h (p.advanced t) ht.advanced]
    | _ => simp only [hk]
termination_by p.remaining s

theorem coincide_argumentsOrNone (h : p.Exchangeable d argument argument') :
    p.Coincide d (p.argumentsOrNone argument) (p.argumentsOrNone argument') := by
  intro s hs
  unfold argumentsOrNone
  rw [coincide_arguments h s hs]

variable (hd : d ≤ p.maxDepth) (h : ∀ q, p.Exchangeable d (expr q) (expr' q))

include hd h

theorem coincide_prefixRule (rule : PrefixRule) (token : Token) :
    p.Coincide d (rule.apply p expr token) (rule.apply p expr' token) := by
  cases rule with
  | operand => exact .refl _
  | endOfInput => exact .refl _
  | sign =>
    exact (Coincide.refl _).bind (keeps_settle hd _) fun _ =>
      (h _).coincide.bind (h _).keeps fun _ => .refl _
  | group => exact (h _).coincide.bind (h _).keeps fun _ => .refl _

theorem coincide_infixRule (rule : InfixRule) (left : Expr) (token : Token) :
    p.Coincide d (rule.apply p expr left token) (rule.apply p expr' left token) := by
  cases hq : rule.rightPower? (p.grammar.power token.kind) with
  | some q =>
    rw [InfixRule.apply_eq hq, InfixRule.apply_eq hq]
    exact (Coincide.refl _).bind (keeps_settle hd _) fun _ =>
      (h _).coincide.bind (h _).keeps fun _ => .refl _
  | none =>
    cases rule <;> cases hq
    exact (Coincide.refl _).bind (keeps_settle hd _) fun _ =>
      (coincide_argumentsOrNone (h _)).bind
        (keeps_arguments hd (h _).forward (h _).keeps) fun _ => .refl _

theorem coincide_beginning (power : Power) :
    p.Coincide d (p.beginning expr power) (p.beginning expr' power) := by
  intro s hs
  unfold beginning
  dsimp only
  split
  · rfl
  · exact coincide_prefixRule hd h _ _ _ hs.advanced

theorem coincide_continuation (power : Power) (left : Expr) :
    p.Coincide d (p.continuation expr power left) (p.continuation expr' power left) := by
  intro s hs
  unfold continuation
  dsimp only
  split
  · rfl
  · exact coincide_infixRule hd h _ _ _ _ hs.advanced

theorem coincide_climb (power : Power) (left : Expr) (s : Progress) (hs : p.Stands d s) :
    p.climb expr power left s = p.climb expr' power left s := by
  have hf := fun q => (h q).forward
  rw [climb_eq hf, climb_eq fun q => (h q).forward', ← coincide_continuation hd h power left s hs]
  have hend := keeps_continuation hd hf (fun q => (h q).keeps) power left s hs
  cases hc : p.continuation expr power left s with
  | error fault t => rfl
  | ok whole t =>
    have hread := remaining_continuation_lt hf hc
    simp only [coincide_climb power whole t ((ends_of_ok hc).mp hend)]
termination_by p.remaining s

end Exchange

/-- At the depth all operands have the same room, whether it is handed down or read off. -/
theorem exchangeable_exprHere (h : d + room = p.maxDepth) (power : Power) :
    p.Exchangeable d (p.expr room power) (p.exprHere power) where
  coincide s hs := by
    have hroom : p.room s = room := by
      rw [Parser.room, hs.1]
      omega
    rw [exprHere, hroom]
  keeps := keeps_expr (Nat.le_of_eq h) power
  forward := forward_expr p room power
  forward' := forward_exprHere p power

/-- An expression where the parse stands: the limit is held against the depth, and what the rules
have to read is read in the same way, wherever the parse then stands. -/
theorem exprHere_eq (hs : s.cursor ≤ p.stream.size) (power : Power) :
    p.exprHere power s = (do
      p.enter
      let left ← p.beginning p.exprHere power
      let whole ← p.climb p.exprHere power left
      leave
      pure whole) s := by
  by_cases hlt : s.depth < p.maxDepth
  · obtain ⟨room, hdepth⟩ : ∃ room, s.depth + 1 + room = p.maxDepth :=
      ⟨p.maxDepth - (s.depth + 1), by omega⟩
    have hroom : p.room s = room + 1 := by
      rw [Parser.room]
      omega
    have henter : p.enter s = .ok () { s with depth := s.depth + 1 } := if_pos hlt
    have hd : s.depth + 1 ≤ p.maxDepth := hlt
    have hoperand := exchangeable_exprHere hdepth
    have hkeeps := fun q => (hoperand q).keeps
    have hbody : p.Coincide (s.depth + 1)
        (do
          let left ← p.beginning (p.expr room) power
          let whole ← p.climb (p.expr room) power left
          leave
          pure whole)
        (do
          let left ← p.beginning p.exprHere power
          let whole ← p.climb p.exprHere power left
          leave
          pure whole) :=
      (coincide_beginning hd hoperand power).bind (keeps_beginning hd hkeeps power) fun left =>
        Coincide.bind (coincide_climb hd hoperand power left)
          (keeps_climb hd (forward_expr p room) hkeeps power left) fun _ => .refl _
    rw [exprHere, hroom, bind_of_ok henter]
    exact hbody _ ⟨rfl, hs⟩
  · have hroom : p.room s = 0 := by
      rw [Parser.room]
      omega
    have henter : p.enter s = p.refuse s := if_neg hlt
    rw [exprHere, hroom, bind_of_error henter]
    rfl

end Parser

end Precedence

import Precedence.Proofs.Account
import Precedence.Proofs.Arithmetic

/-!
# How often rules are applied

A parse applies a rule to a token as it reads it, and it reads no token of the row twice. Only the
closing token is read again and again, by rules that open something there. None of these succeeds,
so each time costs a level of nesting, and what a failing parse has spent is known from the tokens
it had to read and the levels it had left (`Pays`). Therefore the rules applied are those of tokens
of the row, in order and once each, and a number of times that of the closing token, at most the
levels allowed and one (`dispatches_inOrder`). For arithmetic, which opens nothing at the end, it is
once.
-/

namespace Precedence

/-- The token a rule was applied to. -/
def Dispatch.token (dispatch : Dispatch) : Token := dispatch.entry.1

namespace Parser

variable {p : Parser} {s t v : Progress} {room m n : Nat} {power : Power} {left : Expr}
  {token : Token} {ts : List (Token × Part)}

/-! ## What is spent between two states -/

/-- The tokens before the closing one that are still to be read. -/
def unread (p : Parser) (s : Progress) : List Token := p.stream.body.toList.drop s.cursor

/-- Between the two states rules were applied to tokens that were still to be read, in order and to
none of them twice, and then to the closing token, at most `n` times. -/
def Pays (p : Parser) (n : Nat) (s t : Progress) : Prop :=
  ∃ dispatches : List Dispatch, t.trace = dispatches.reverse ++ s.trace ∧
    (dispatches.map Dispatch.token).Sublist (p.unread s ++ List.replicate n p.stream.last)

theorem Pays.none (h : t.trace = s.trace) : p.Pays n s t := ⟨[], h, List.nil_sublist _⟩

theorem Pays.mono (h : p.Pays m s t) (hle : m ≤ n) : p.Pays n s t := by
  obtain ⟨dispatches, htrace, hsub⟩ := h
  refine ⟨dispatches, htrace, hsub.trans ((List.Sublist.refl _).append ?_)⟩
  exact (List.replicate_sublist_replicate _).mpr hle

theorem unread_of_le (h : p.stream.body.size ≤ s.cursor) : p.unread s = [] :=
  List.drop_eq_nil_of_le (by simpa using h)

theorem unread_of_lt (h : s.cursor < p.stream.body.size) :
    p.unread s = p.current s :: p.unread (p.advanced s) := by
  have hlength : s.cursor < p.stream.body.toList.length := by simpa using h
  rw [unread, unread, cursor_advanced (Nat.lt_succ_of_lt h), List.drop_eq_getElem_cons hlength]
  simp [current, Stream.token, h]

/-- What has been read is no longer to be read. -/
theorem Spans.unread_eq {us : List Token} (h : p.Spans s us t) : p.unread s = us ++ p.unread t := by
  induction us generalizing s with
  | nil =>
    have hcursor : t.cursor = s.cursor := h.cursor
    rw [unread, unread, hcursor]
    rfl
  | cons u us ih =>
    obtain ⟨⟨hu, hshows⟩, hcursor, hle⟩ := h
    rw [List.length_cons] at hcursor
    have hlt : s.cursor < p.stream.body.size := by omega
    have hadv := cursor_advanced (p := p) (Nat.lt_succ_of_lt hlt)
    have hcurrent : p.current s = u := hu
    rw [unread_of_lt hlt, hcurrent,
      ih ⟨by rw [hadv]; exact hshows, by rw [hcursor, hadv]; omega, hle⟩, List.cons_append]

theorem sublist_entries (ts : List (Token × Part)) :
    ((ts.filterMap Part.entry?).map Prod.fst).Sublist (ts.map Prod.fst) := by
  induction ts with
  | nil => exact List.nil_sublist _
  | cons t ts ih =>
    obtain ⟨token, part⟩ := t
    cases part with
    | closing | separating => exact ih.cons _
    | beginning | continuing | opening => exact ih.cons_cons _

/-- What was read for an expression has paid for the rules applied. -/
theorem Took.pays (h : p.Took s ts t) (h' : p.Pays n t v) : p.Pays n s v := by
  obtain ⟨dispatches, htrace, hentries⟩ := h.trace
  obtain ⟨others, htrace', hsub⟩ := h'
  have htokens : (dispatches.map Dispatch.token).Sublist (ts.map Prod.fst) := by
    have heq : dispatches.map Dispatch.token = (ts.filterMap Part.entry?).map Prod.fst := by
      rw [← hentries, List.map_map]
      rfl
    exact heq ▸ sublist_entries ts
  refine ⟨dispatches ++ others, by rw [htrace', htrace, List.reverse_append, List.append_assoc], ?_⟩
  rw [h.spans.unread_eq, List.map_append, List.append_assoc]
  exact htokens.append hsub

/-- A rule applied to a token of the row is paid by the token. -/
theorem Pays.read {dispatch : Dispatch} (hs : s.cursor < p.stream.body.size)
    (htoken : dispatch.token = p.current s) (h : p.Pays n (noted dispatch (p.advanced s)) t) :
    p.Pays n s t := by
  obtain ⟨dispatches, htrace, hsub⟩ := h
  refine ⟨dispatch :: dispatches, ?_, ?_⟩
  · rw [htrace, noted, trace_advanced, List.reverse_cons, List.append_assoc]
    rfl
  · rw [unread_of_lt hs, List.map_cons, htoken]
    exact hsub.cons_cons _

/-- A rule applied to the closing token is paid by nothing. -/
theorem Pays.read_behind {dispatch : Dispatch} (hs : p.stream.body.size ≤ s.cursor)
    (htoken : dispatch.token = p.current s) (h : p.Pays n (noted dispatch (p.advanced s)) t) :
    p.Pays (n + 1) s t := by
  obtain ⟨dispatches, htrace, hsub⟩ := h
  have hbehind : p.stream.body.size ≤ (noted dispatch (p.advanced s)).cursor :=
    Nat.le_trans hs (cursor_le_advanced p s)
  have hlast : dispatch.token = p.stream.last :=
    htoken.trans (Stream.token_of_size_le hs)
  refine ⟨dispatch :: dispatches, ?_, ?_⟩
  · rw [htrace, noted, trace_advanced, List.reverse_cons, List.append_assoc]
    rfl
  · rw [unread_of_le hbehind, List.nil_append] at hsub
    rw [unread_of_le hs, List.map_cons, hlast, List.replicate_succ, List.nil_append]
    exact hsub.cons_cons _

/-! ## Behind the row -/

/-- Behind the row there is nothing to read, and the closing token is read for one rule after the
other. -/
theorem Pays.append_behind (hs : p.stream.body.size ≤ s.cursor)
    (ht : p.stream.body.size ≤ t.cursor) (h : p.Pays m s t) (h' : p.Pays n t v) :
    p.Pays (m + n) s v := by
  obtain ⟨dispatches, htrace, hsub⟩ := h
  obtain ⟨others, htrace', hsub'⟩ := h'
  refine ⟨dispatches ++ others, by rw [htrace', htrace, List.reverse_append, List.append_assoc], ?_⟩
  rw [unread_of_le hs, List.nil_append] at hsub ⊢
  rw [unread_of_le ht, List.nil_append] at hsub'
  rw [List.map_append, ← List.replicate_append_replicate]
  exact hsub.append hsub'

/-- With so much room, an expression behind the row applies rules no more than `n` times. -/
def PaysBehind (p : Parser) (room n : Nat) : Prop :=
  ∀ power s, p.stream.body.size ≤ s.cursor →
    Ends (p.expr room power) s (fun _ t => p.Pays n s t) fun _ t => p.Pays n s t

theorem pays_beginning_behind (hs : p.stream.body.size ≤ s.cursor) (h : p.PaysBehind room n) :
    Ends (p.beginning (p.expr room) power) s (fun e t => p.Vacant e t ∧ p.Pays 1 s t)
      fun _ t => p.Pays (n + 1) s t := by
  have hk : (p.current s).kind = .eof := Stream.kind_token_of_size_le hs
  have hnext : p.stream.body.size ≤ (p.advanced s).cursor :=
    Nat.le_trans hs (cursor_le_advanced p s)
  have hread : ∀ {m t}, p.Pays m (noted (.begins (p.current s) power) (p.advanced s)) t →
      p.Pays (m + 1) s t := .read_behind hs rfl
  have hone : ∀ {m}, p.Pays (m + 1) s (noted (.begins (p.current s) power) (p.advanced s)) :=
    hread (.none rfl)
  suffices hpays : Ends (p.beginning (p.expr room) power) s (fun _ t => p.Pays 1 s t)
      fun _ t => p.Pays (n + 1) s t from
    ((ends_beginning_behind hs).and hpays).imp (fun _ _ h => h) fun _ _ h => h.2
  rw [ends_beginning]
  cases p.grammar.prefixRule? (p.current s).kind with
  | none => exact .none trace_advanced
  | some rule =>
    dsimp only
    rw [ends_prefixRule]
    cases rule with
    | operand => exact ends_settle_of (fun _ _ => hone) fun _ => hone
    | endOfInput => exact ends_settle_of (fun _ _ => hone) fun _ => hone
    | sign =>
      simp only [ends_settle, operatorOf, hk, Operator.ofKind?]
      exact hone
    | group =>
      have hinner := (h .default (noted (.begins (p.current s) power) (p.advanced s)) hnext).and
        ((forward_expr p room .default).ends _)
      refine hinner.imp ?_ fun _ _ h => hread h.1
      rintro e t ⟨hpays, hle⟩
      have hend : (p.current t).kind = .eof :=
        Stream.kind_token_of_size_le (Nat.le_trans hnext hle)
      rw [hend]
      exact hread hpays

theorem pays_arguments_behind (hs : p.stream.body.size ≤ s.cursor) (h : p.PaysBehind room n) :
    Ends (p.argumentsOrNone (p.expr room .default)) s (fun _ _ => False)
      fun _ t => p.Pays n s t := by
  have hk : (p.current s).kind = .eof := Stream.kind_token_of_size_le hs
  have hnot : ¬ (p.current s).isOneOf [.comma, .closeParen] = true := by
    simp [Token.isOneOf, hk]
  have hclose : (p.current s).kind ≠ .closeParen := by simp [hk]
  rw [ends_argumentsOrNone, if_neg hclose, ends_arguments_iff (forward_expr p room .default),
    if_neg hnot]
  refine ((h .default s hs).and ((forward_expr p room .default).ends s)).imp ?_ fun _ _ h => h.1
  rintro e t ⟨hpays, hle⟩
  have hend : (p.current t).kind = .eof := Stream.kind_token_of_size_le (Nat.le_trans hs hle)
  rw [hend]
  exact hpays

/-- Behind the row an operator is none, and a call is not closed. -/
theorem pays_continuation_behind (hs : p.stream.body.size ≤ s.cursor)
    (h : left.isIdentifier = true → p.PaysBehind room n) :
    Ends (p.continuation (p.expr room) power left) s (fun _ _ => False)
      fun _ t => p.Pays (n + 1) s t := by
  have hk : (p.current s).kind = .eof := Stream.kind_token_of_size_le hs
  have hnext : p.stream.body.size ≤ (p.advanced s).cursor :=
    Nat.le_trans hs (cursor_le_advanced p s)
  have hread : ∀ {m t}, p.Pays m (noted (.continues (p.current s) power) (p.advanced s)) t →
      p.Pays (m + 1) s t := .read_behind hs rfl
  refine (ends_continuation_behind hs).of_parts ?_
  rw [ends_continuation]
  cases p.grammar.infixRule? (p.current s).kind with
  | none => exact .none trace_advanced
  | some rule =>
    dsimp only
    cases hq : rule.rightPower? (p.grammar.power (p.current s).kind) with
    | some q =>
      rw [ends_operator hq]
      simp only [ends_settle, operatorOf, hk, Operator.ofKind?]
      exact hread (.none rfl)
    | none =>
      cases rule <;> cases hq
      rw [ends_call]
      refine ends_settle_of (fun _ hcallable => ?_) fun _ => hread (.none rfl)
      have hbehind := h (isIdentifier_of_callable hcallable)
      exact (pays_arguments_behind (s := noted (.continues (p.current s) power) (p.advanced s))
        hnext hbehind).imp (fun _ _ => False.elim) fun _ _ => hread

/-! ## In the row -/

/-- Whatever rules were applied up to the second state are paid by what was read from the first. -/
def Leads (p : Parser) (s t : Progress) : Prop := ∀ n v, p.Pays n t v → p.Pays n s v

theorem Leads.refl : p.Leads s s := fun _ _ hpays => hpays

theorem Leads.trans (h : p.Leads s t) (h' : p.Leads t v) : p.Leads s v :=
  fun n u hpays => h n u (h' n u hpays)

theorem Leads.pays (h : p.Leads s t) : p.Pays n s t := h n t (.none rfl)

theorem Leads.advanced (hk : (p.current t).kind ≠ .eof) (h : p.Leads s t) :
    p.Leads s (p.advanced t) := by
  intro n v hpays
  have htook : p.Took t [(p.current t, .separating)] (p.advanced t) := .advanced hk rfl
  exact h n v (htook.pays hpays)

/-- With so much room at any power, an expression is paid by what was read for it, and a failing one
applies rules to the closing token no more than `n` times. -/
def AllPay (p : Parser) (room n : Nat) : Prop :=
  ∀ power s, Ends (p.expr room power) s (fun _ t => p.Leads s t) fun _ t => p.Pays n s t

theorem pays_prefixRule (h : p.AllPay room n) (rule : PrefixRule) :
    Ends (rule.apply p (p.expr room) token) s (fun _ _ => True) fun _ t => p.Pays n s t := by
  rw [ends_prefixRule]
  cases rule with
  | operand => exact ends_settle_of (fun _ _ => trivial) fun _ => .none rfl
  | endOfInput => exact ends_settle_of (fun _ _ => trivial) fun _ => .none rfl
  | sign =>
    exact ends_settle_of (fun _ _ => (h _ _).imp_good fun _ _ _ => trivial) fun _ => .none rfl
  | group =>
    refine (h _ _).imp_good fun e t hleads => ?_
    split
    · trivial
    · exact hleads.pays

theorem pays_arguments (h : p.AllPay room n) :
    Ends (p.argumentsOrNone (p.expr room .default)) s (fun _ t => p.Leads s t)
      fun _ t => p.Pays n s t := by
  rw [ends_argumentsOrNone]
  split
  · exact .refl
  · refine ends_arguments (forward_expr p room .default) (by exact .refl)
      (fun _ t (hleads : p.Leads s t) _ => hleads.pays) ?_
    intro done t hleads _
    refine (h .default t).imp (fun e u hnext => ?_) fun _ u => hleads n u
    have hboth := hleads.trans hnext
    cases hk : (p.current u).kind with
    | comma => exact hboth.advanced (hk.trans_ne nofun)
    | closeParen => exact hboth
    | _ => exact hboth.pays

theorem pays_infixRule (h : p.AllPay room n) (rule : InfixRule) :
    Ends (rule.apply p (p.expr room) left token) s (fun _ _ => True) fun _ t => p.Pays n s t := by
  cases hq : rule.rightPower? (p.grammar.power token.kind) with
  | some q =>
    rw [ends_operator hq]
    exact ends_settle_of (fun _ _ => (h _ _).imp_good fun _ _ _ => trivial) fun _ => .none rfl
  | none =>
    cases rule <;> cases hq
    rw [ends_call]
    refine ends_settle_of (fun _ _ => ?_) fun _ => .none rfl
    refine (pays_arguments h).imp_good fun es t hleads => ?_
    split
    · trivial
    · exact hleads.pays

theorem leads_expr (hblank : p.stream.isBlank = false) (room : Nat) (power : Power)
    (s : Progress) : Ends (p.expr room power) s (fun _ t => p.Leads s t) fun _ _ => True :=
  (writes_expr hblank room power s).imp_good fun _ _ ⟨_, htook, _⟩ _ _ => htook.pays

theorem pays_beginning (h : p.AllPay room n) (hs : s.cursor < p.stream.body.size) :
    Ends (p.beginning (p.expr room) power) s (fun _ _ => True) fun _ t => p.Pays n s t := by
  rw [ends_beginning]
  cases p.grammar.prefixRule? (p.current s).kind with
  | none => exact .none trace_advanced
  | some rule => exact (pays_prefixRule h rule).imp (fun _ _ h => h) fun _ _ => .read hs rfl

theorem pays_continuation (h : p.AllPay room n) (hs : s.cursor < p.stream.body.size) :
    Ends (p.continuation (p.expr room) power left) s (fun _ _ => True)
      fun _ t => p.Pays n s t := by
  rw [ends_continuation]
  cases p.grammar.infixRule? (p.current s).kind with
  | none => exact .none trace_advanced
  | some rule => exact (pays_infixRule h rule).imp (fun _ _ h => h) fun _ _ => .read hs rfl

/-- One level more costs what a level costs, or what a beginning and a continuation cost behind
the row. -/
theorem AllPay.succ (hblank : p.stream.isBlank = false) (h : p.AllPay room n) (hle : n ≤ m)
    (hbegin : ∀ power s, p.stream.body.size ≤ s.cursor →
      Ends (p.beginning (p.expr room) power) s (fun _ _ => True) fun _ t => p.Pays m s t)
    (hgo : ∀ power left s, p.stream.body.size ≤ s.cursor →
      power < p.grammar.power (p.current s).kind →
      Ends (p.continuation (p.expr room) power left) s (fun _ _ => True) fun _ t => p.Pays m s t) :
    p.AllPay (room + 1) m := by
  have hbeginning : ∀ power s,
      Ends (p.beginning (p.expr room) power) s (fun _ _ => True) fun _ t => p.Pays m s t := by
    intro power s
    rcases Nat.lt_or_ge s.cursor p.stream.body.size with hs | hs
    · exact (pays_beginning h hs).imp (fun _ _ h => h) fun _ _ hpays => hpays.mono hle
    · exact hbegin power s hs
  have hcontinuation : ∀ power left s, power < p.grammar.power (p.current s).kind →
      Ends (p.continuation (p.expr room) power left) s (fun _ _ => True)
        fun _ t => p.Pays m s t := by
    intro power left s hlt
    rcases Nat.lt_or_ge s.cursor p.stream.body.size with hs | hs
    · exact (pays_continuation h hs).imp (fun _ _ h => h) fun _ _ hpays => hpays.mono hle
    · exact hgo power left s hs hlt
  intro power s
  refine (leads_expr hblank (room + 1) power s).of_parts ?_
  rw [ends_expr_succ, ends_phrase]
  have hphrase := (writes_beginning hblank (writes_expr hblank room) power
    { s with depth := s.depth + 1 }).of_parts (hbeginning power { s with depth := s.depth + 1 })
  refine hphrase.imp ?_ fun _ _ h => h
  refine fun left t hleft => ends_climb (forward_expr p room) (fun _ _ _ _ => trivial) ?_ hleft
  intro left t hleft hlt
  refine ((writes_continuation (writes_expr hblank room) hleft).of_parts
    (hcontinuation power left t hlt)).imp (fun _ _ h => h) fun _ v hpays => ?_
  obtain ⟨ts, htook, -⟩ := hleft
  exact htook.pays hpays

/-- By any grammar, a level costs one rule at the closing token. -/
theorem pays_expr (hblank : p.stream.isBlank = false) (room : Nat) : p.AllPay room room := by
  induction room with
  | zero => exact fun power s => ends_expr_zero.mpr (.none rfl)
  | succ room ih =>
    have hbehind : p.PaysBehind room room := fun power s hs =>
      (ih power s).imp_good fun _ _ hleads => hleads.pays
    refine ih.succ hblank (Nat.le_succ room) ?_ ?_
    · intro power s hs
      exact (pays_beginning_behind hs hbehind).imp_good fun _ _ _ => trivial
    · intro power left s hs _
      exact (pays_continuation_behind hs fun _ => hbehind).imp_good fun _ _ _ => trivial

/-- Arithmetic opens nothing at the closing token. -/
theorem pays_expr_arithmetic (hg : p.grammar = .arithmetic) (hblank : p.stream.isBlank = false)
    (room : Nat) : p.AllPay room 1 := by
  induction room with
  | zero => exact fun power s => ends_expr_zero.mpr (.none rfl)
  | succ room ih =>
    refine ih.succ hblank (Nat.le_refl 1) ?_ ?_
    · intro power s hs
      have hk : (p.current s).kind = .eof := Stream.kind_token_of_size_le hs
      have hone : p.Pays 1 s (noted (.begins (p.current s) power) (p.advanced s)) :=
        .read_behind hs rfl (.none rfl)
      rw [ends_beginning_eof hg hk, hblank]
      exact hone
    · intro power left s hs hlt
      have hk : (p.current s).kind = .eof := Stream.kind_token_of_size_le hs
      rw [hg, hk] at hlt
      exact absurd hlt (Power.not_lt_default power)

/-! ## Blank streams -/

theorem size_le_of_isBlank (hblank : p.stream.isBlank = true) (s : Progress) :
    p.stream.body.size ≤ s.cursor := by
  have hsize : p.stream.body.size = 0 := by simpa [Stream.isBlank] using hblank
  rw [hsize]
  exact Nat.zero_le _

/-- Where there is nothing but the end, the empty expression costs one rule, and so does going on
with it, which fails. -/
theorem pays_expr_blank (hblank : p.stream.isBlank = true) (room : Nat) (power : Power)
    (s : Progress) : Ends (p.expr room power) s (fun _ t => p.Pays 1 s t)
      fun _ t => p.Pays (room + 1) s t := by
  induction room generalizing power s with
  | zero => exact ends_expr_zero.mpr (.none rfl)
  | succ room ih =>
    have hbehind : p.PaysBehind room (room + 1) := fun power s _ =>
      (ih power s).imp_good fun _ _ hpays => hpays.mono (Nat.le_add_left 1 room)
    rw [ends_expr_succ, ends_phrase]
    refine (pays_beginning_behind (size_le_of_isBlank hblank _) hbehind).imp ?_ fun _ _ h => h
    refine fun left t hleft => ends_climb (forward_expr p room)
      (fun e u (h : p.Vacant e u ∧ p.Pays 1 { s with depth := s.depth + 1 } u) _ => h.2) ?_ hleft
    rintro left t ⟨⟨-, rfl, hbehind⟩, hpays⟩ -
    have hcall : Expr.empty.isIdentifier = true → p.PaysBehind room 0 := fun h => by cases h
    refine (pays_continuation_behind hbehind hcall).imp (fun _ _ => False.elim) fun _ v hgo => ?_
    have htwo := hpays.append_behind (size_le_of_isBlank hblank _) hbehind hgo
    exact htwo.mono (by omega)

/-- Arithmetic does not go on with it. -/
theorem pays_expr_blank_arithmetic (hg : p.grammar = .arithmetic)
    (hblank : p.stream.isBlank = true) (room : Nat) (power : Power) (s : Progress) :
    Ends (p.expr room power) s (fun _ t => p.Pays 1 s t) fun _ t => p.Pays 1 s t := by
  have heof : ∀ t, (p.current t).kind = .eof :=
    fun t => Stream.kind_token_of_size_le (size_le_of_isBlank hblank t)
  cases room with
  | zero => exact ends_expr_zero.mpr (.none rfl)
  | succ room =>
    rw [ends_expr_succ, ends_phrase, ends_beginning_eof hg (heof _), if_pos hblank,
      ends_climb_of_le hg (by rw [heof]; exact Power.not_lt.mp (Power.not_lt_default power))]
    have hbehind := size_le_of_isBlank hblank { s with depth := s.depth + 1 }
    exact Pays.read_behind (s := { s with depth := s.depth + 1 }) hbehind rfl (.none rfl)

/-! ## Whole parses -/

/-- Behind the expression a whole parse applies no rule. -/
theorem ends_whole_of_pays
    (h : Ends (p.expr p.maxDepth .default) .start (fun _ t => p.Pays n .start t)
      fun _ t => p.Pays n .start t) :
    Ends p.whole .start (fun _ t => p.Pays n .start t) fun _ t => p.Pays n .start t := by
  rw [ends_whole]
  refine h.imp_good fun e t hpays => ?_
  split <;> exact hpays

theorem pays_whole (p : Parser) :
    Ends p.whole .start (fun _ t => p.Pays (p.maxDepth + 1) .start t)
      fun _ t => p.Pays (p.maxDepth + 1) .start t := by
  refine ends_whole_of_pays ?_
  cases hblank : p.stream.isBlank with
  | true =>
    refine (pays_expr_blank hblank p.maxDepth .default .start).imp_good fun _ _ hpays => ?_
    exact hpays.mono (Nat.le_add_left 1 _)
  | false =>
    refine (pays_expr hblank p.maxDepth .default .start).imp ?_ ?_
    · exact fun _ _ hleads => hleads.pays
    · exact fun _ _ hpays => hpays.mono (Nat.le_succ _)

theorem pays_whole_arithmetic (hg : p.grammar = .arithmetic) :
    Ends p.whole .start (fun _ t => p.Pays 1 .start t) fun _ t => p.Pays 1 .start t := by
  refine ends_whole_of_pays ?_
  cases hblank : p.stream.isBlank with
  | true => exact pays_expr_blank_arithmetic hg hblank _ _ _
  | false =>
    refine (pays_expr_arithmetic hg hblank _ _ _).imp_good ?_
    exact fun _ _ hleads => hleads.pays

end Parser

/-! ## Rows of tokens -/

/-- The rules were applied to tokens of the stream in order: to none of the row twice, and then to
the closing one, `n` times at most. -/
def Outcome.InOrder (outcome : Outcome) (w : Stream) (n : Nat) : Prop :=
  (outcome.dispatches.map Dispatch.token).Sublist (w.body.toList ++ List.replicate n w.last)

section Rows

variable {g : Grammar} {maxDepth n : Nat} {tokens : List Token} {outcome : Outcome} {w : Stream}

theorem Outcome.InOrder.length_le (h : outcome.InOrder w n) :
    outcome.dispatches.length ≤ w.body.size + n := by
  have hle := List.Sublist.length_le h
  rwa [List.length_map, List.length_append, List.length_replicate, Array.length_toList] at hle

theorem inOrder_of_pays
    (h : Parser.Ends (Parser.whole ⟨g, .ofList tokens, maxDepth⟩) .start
      (fun _ t => Parser.Pays ⟨g, .ofList tokens, maxDepth⟩ n .start t)
      fun _ t => Parser.Pays ⟨g, .ofList tokens, maxDepth⟩ n .start t) :
    (runTokens g maxDepth tokens).InOrder (.ofList tokens) n := by
  by_cases herror : ∀ t ∈ tokens, t.kind ≠ .error
  · obtain ⟨t, hdispatches, hpays⟩ := Parser.run_of_ends h
    have hstart : Parser.Pays ⟨g, .ofList tokens, maxDepth⟩ n .start t := by
      split at hpays <;> exact hpays
    obtain ⟨dispatches, htrace, hsub⟩ := hstart
    have heq : (runTokens g maxDepth tokens).dispatches = dispatches := by
      rw [runTokens_eq_run herror, hdispatches, htrace]
      simp [Progress.start]
    rw [Outcome.InOrder, heq]
    exact hsub
  · obtain ⟨_, -, -, hall⟩ := exists_runTokens_eq_of_error herror
    rw [Outcome.InOrder, hall]
    exact List.nil_sublist _

/-- A parse applies no more rules than there are tokens, the closing one included, and levels
allowed; by the rules of arithmetic, no more than there are tokens. -/
theorem dispatches_inOrder (g : Grammar) (maxDepth : Nat) (tokens : List Token) :
    ((runTokens g maxDepth tokens).InOrder (.ofList tokens) (maxDepth + 1) ∧
      (runTokens g maxDepth tokens).dispatches.length ≤
        (Stream.ofList tokens).size + maxDepth) ∧
    ((runTokens .arithmetic maxDepth tokens).InOrder (.ofList tokens) 1 ∧
      (runTokens .arithmetic maxDepth tokens).dispatches.length ≤
        (Stream.ofList tokens).size) := by
  have hany : (runTokens g maxDepth tokens).InOrder (.ofList tokens) (maxDepth + 1) :=
    inOrder_of_pays (Parser.pays_whole ⟨g, .ofList tokens, maxDepth⟩)
  have harithmetic : (runTokens .arithmetic maxDepth tokens).InOrder (.ofList tokens) 1 :=
    inOrder_of_pays (Parser.pays_whole_arithmetic rfl)
  refine ⟨⟨hany, ?_⟩, harithmetic, harithmetic.length_le⟩
  have hle := hany.length_le
  rw [Stream.size]
  omega

/-- Where the closing token opens a group, it does so at every level. -/
example : (runTokens (Grammar.empty.register (.begins .eof .group)) 3 []).dispatches.length = 3 := by
  cbv

end Rows

end Precedence

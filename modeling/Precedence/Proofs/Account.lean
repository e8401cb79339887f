import Precedence.Proofs.Spelling

/-!
# Every token has its part

By any grammar at all, what a parse reads is the text of the expression it makes, token by token
(`writes_expr`). So no token is lost, none counts twice and none changes its place: the nodes of an
expression are made by tokens of the row in order, and each other token that was read opened a
group, closed a group or a call, or stood between two arguments (`Account`). The rules applied are
those of the tokens that make nodes or open groups, again in order.

At the end of the row nothing begins and nothing goes on, whatever the rules for the token that
marks the end: it is no operand and no operator, and what it opens is never closed. Only where it
is the whole of a stream may it stand for the empty expression.
-/

namespace Precedence

namespace Parser

/-- The parse has gone from one state to the other, read the tokens and given each its part. -/
structure Took (p : Parser) (s : Progress) (ts : List (Token × Part)) (t : Progress) : Prop where
  spans : p.Spans s (ts.map Prod.fst) t
  trace : ∃ dispatches : List Dispatch, t.trace = dispatches.reverse ++ s.trace ∧
    dispatches.map Dispatch.entry = ts.filterMap Part.entry?

variable {p : Parser} {s t v : Progress} {ts us : List (Token × Part)} {room : Nat}
  {power : Power} {left : Expr}

theorem Took.append (h : p.Took s ts t) (h' : p.Took t us v) : p.Took s (ts ++ us) v where
  spans := by
    rw [List.map_append]
    exact h.spans.append h'.spans
  trace := by
    obtain ⟨ds, hds, hentries⟩ := h.trace
    obtain ⟨ds', hds', hentries'⟩ := h'.trace
    refine ⟨ds ++ ds', ?_, ?_⟩
    · rw [hds', hds, List.reverse_append, List.append_assoc]
    · rw [List.map_append, List.filterMap_append, hentries, hentries']

/-- A token that a rule is applied to. -/
theorem Took.read (dispatch : Dispatch) {part : Part} (h : s.cursor < p.stream.body.size)
    (hentry : Part.entry? (p.current s, part) = some dispatch.entry) :
    p.Took s [(p.current s, part)] (noted dispatch (p.advanced s)) where
  spans := .read dispatch h
  trace := by
    refine ⟨[dispatch], by rw [noted, trace_advanced]; rfl, ?_⟩
    rw [List.filterMap_cons, hentry]
    rfl

theorem Took.advanced {part : Part} (hk : (p.current s).kind ≠ .eof)
    (hentry : Part.entry? (p.current s, part) = none) :
    p.Took s [(p.current s, part)] (p.advanced s) where
  spans := .advanced (cursor_lt_of_kind_ne hk)
  trace := by
    refine ⟨[], by rw [trace_advanced]; rfl, ?_⟩
    rw [List.filterMap_cons, hentry]
    rfl

/-- What has been read is the text of the expression. -/
def Writes (p : Parser) (s : Progress) (e : Expr) (t : Progress) : Prop :=
  ∃ ts, p.Took s ts t ∧ Spells p.grammar ts e

/-- What is read with so much room at any power is the text of the expression it makes. -/
def AllWrite (p : Parser) (room : Nat) : Prop :=
  ∀ power s, Ends (p.expr room power) s (p.Writes s) fun _ _ => True

/-! ## Behind the row -/

theorem Forward.ends {α : Type} {m : ParseM α} (h : Forward m) (s : Progress) :
    Ends m s (fun _ t => s.cursor ≤ t.cursor) fun _ _ => True := by
  cases hm : m s with
  | ok a t => exact (ends_of_ok hm).mpr (h s a t hm)
  | error fault t => exact (ends_of_error hm).mpr trivial

/-- The expression is the empty one, of a stream that has nothing else. -/
structure Vacant (p : Parser) (e : Expr) (t : Progress) : Prop where
  blank : p.stream.isBlank = true
  eq_empty : e = .empty
  behind : p.stream.body.size ≤ t.cursor

/-- Behind the row nothing begins but the empty expression. -/
theorem ends_beginning_behind (hs : p.stream.body.size ≤ s.cursor) :
    Ends (p.beginning (p.expr room) power) s p.Vacant fun _ _ => True := by
  have hk : (p.current s).kind = .eof := Stream.kind_token_of_size_le hs
  have hnext : p.stream.body.size ≤ (p.advanced s).cursor :=
    Nat.le_trans hs (cursor_le_advanced p s)
  rw [ends_beginning]
  cases p.grammar.prefixRule? (p.current s).kind with
  | none => trivial
  | some rule =>
    dsimp only
    rw [ends_prefixRule]
    cases rule with
    | operand => simp only [ends_settle, operandOf, hk]
    | endOfInput =>
      rw [ends_settle, nothingBefore]
      cases hblank : p.stream.isBlank with
      | true => exact ⟨hblank, rfl, hnext⟩
      | false => trivial
    | sign => simp only [ends_settle, operatorOf, hk, Operator.ofKind?]
    | group =>
      refine ((forward_expr p room .default).ends _).imp ?_ fun _ _ h => h
      intro e t hle
      have hend : (p.current t).kind = .eof :=
        Stream.kind_token_of_size_le (Nat.le_trans hnext hle)
      rw [hend]
      trivial

theorem ends_continuation_behind (hs : p.stream.body.size ≤ s.cursor) :
    Ends (p.continuation (p.expr room) power left) s (fun _ _ => False) fun _ _ => True := by
  have hk : (p.current s).kind = .eof := Stream.kind_token_of_size_le hs
  have hnext : p.stream.body.size ≤
      (noted (.continues (p.current s) power) (p.advanced s)).cursor :=
    Nat.le_trans hs (cursor_le_advanced p s)
  rw [ends_continuation]
  cases p.grammar.infixRule? (p.current s).kind with
  | none => trivial
  | some rule =>
    dsimp only
    cases hw : rule.apply p (p.expr room) left (p.current s)
        (noted (.continues (p.current s) power) (p.advanced s)) with
    | ok e t => exact absurd hw (infixRule_ne_ok rule (forward_expr p room) hk left hnext e t)
    | error fault t => exact (ends_of_error hw).mpr trivial

/-- Behind the row there is no expression but the empty one. -/
theorem ends_expr_behind (hs : p.stream.body.size ≤ s.cursor) :
    Ends (p.expr room power) s p.Vacant fun _ _ => True := by
  cases room with
  | zero => exact ends_expr_zero.mpr trivial
  | succ room =>
    rw [ends_expr_succ, ends_phrase]
    refine (ends_beginning_behind (s := { s with depth := s.depth + 1 }) hs).imp ?_ fun _ _ h => h
    intro e t he
    refine ends_climb (forward_expr p room) ?_ ?_ he
    · exact fun e t he _ => ⟨he.blank, he.eq_empty, he.behind⟩
    · exact fun e t he _ => (ends_continuation_behind he.behind).imp (fun _ _ => False.elim)
        fun _ _ h => h

/-! ## In the row -/

theorem operandOf_eq_ok {g : Grammar} {t : Token} {e : Expr}
    (hrule : g.prefixRule? t.kind = some .operand) (h : operandOf t = .ok e) :
    Spells g [(t, .beginning)] e := by
  unfold operandOf at h
  split at h
  · rename_i hk
    split at h
    · rename_i value hv
      cases h
      exact .number hrule hk hv
    · cases h
  · rename_i hk
    cases h
    exact .identifier hrule hk
  · cases h

theorem operatorOf_eq_ok {t : Token} {operator : Operator} (h : operatorOf t = .ok operator) :
    Operator.ofKind? t.kind = some operator := by
  unfold operatorOf at h
  split at h
  · rename_i hop
    cases h
    exact hop
  · cases h

theorem isIdentifier_of_callable {t : Token} {u : Unit} (h : callable left t = .ok u) :
    left.isIdentifier = true := by
  unfold callable at h
  split at h
  · assumption
  · cases h

/-- A step that fails may fail in any way. -/
theorem ends_settle_ok {α : Type} {decided : Except Fault α} {good : α → Progress → Prop}
    (h : ∀ a, decided = .ok a → good a s) : Ends (settle decided) s good fun _ _ => True :=
  ends_settle_of h fun _ => trivial

theorem writes_prefixRule (hblank : p.stream.isBlank = false)
    (h : p.AllWrite room)
    (hs : s.cursor < p.stream.body.size) {rule : PrefixRule}
    (hrule : p.grammar.prefixRule? (p.current s).kind = some rule) :
    Ends (rule.apply p (p.expr room) (p.current s))
      (noted (.begins (p.current s) power) (p.advanced s)) (p.Writes s) fun _ _ => True := by
  rw [ends_prefixRule]
  cases rule with
  | operand =>
    refine ends_settle_ok fun e he => ?_
    exact ⟨_, .read _ hs rfl, operandOf_eq_ok hrule he⟩
  | endOfInput =>
    simp only [ends_settle, nothingBefore, hblank]
    trivial
  | sign =>
    refine ends_settle_ok fun operator hop => (h _ _).imp ?_ fun _ _ h => h
    rintro e t ⟨ts, hts, he⟩
    have hread : p.Took s [(p.current s, .beginning)] _ :=
      .read (.begins (p.current s) power) hs rfl
    exact ⟨_, hread.append hts, .signed hrule (operatorOf_eq_ok hop) he⟩
  | group =>
    refine (h _ _).imp ?_ fun _ _ h => h
    rintro e t ⟨ts, hts, he⟩
    split
    · rename_i hu
      have hread : p.Took s [(p.current s, .opening)] _ :=
        .read (.begins (p.current s) power) hs rfl
      have hclose : p.Took t [(p.current t, .closing)] _ := .advanced (hu.trans_ne nofun) rfl
      exact ⟨_, hread.append (hts.append hclose), .group hrule he hu⟩
    · trivial

/-- Arguments read up to some point, all of them with a comma behind: they are the beginning of
whatever text of arguments follows. -/
def WritesArguments (p : Parser) (s : Progress) (done : List Expr) (t : Progress) : Prop :=
  ∃ ts, p.Took s ts t ∧
    ∀ us es, SpellsArguments p.grammar us es → SpellsArguments p.grammar (ts ++ us) (done ++ es)

theorem Took.nil (h : s.cursor ≤ p.stream.body.size) : p.Took s [] s where
  spans := .nil h
  trace := ⟨[], rfl, rfl⟩

theorem writes_arguments (h : p.AllWrite room)
    (hs : s.cursor ≤ p.stream.body.size) :
    Ends (p.arguments (p.expr room .default)) s
      (fun es t => ∃ ts, p.Took s ts t ∧ SpellsArguments p.grammar ts es) fun _ _ => True := by
  have hstart : p.WritesArguments s [] s := ⟨[], .nil hs, fun _ _ h => h⟩
  refine ends_arguments (forward_expr p room .default) hstart (fun _ _ _ _ => trivial) ?_
  rintro done t ⟨ts, hts, hdone⟩ -
  refine (h .default t).imp ?_ fun _ _ h => h
  rintro e v ⟨us, hus, he⟩
  cases hk : (p.current v).kind with
  | comma =>
    have hcomma : p.Took v [(p.current v, .separating)] _ := .advanced (hk.trans_ne nofun) rfl
    refine ⟨_, hts.append (hus.append hcomma), fun ws es hes => ?_⟩
    have := hdone _ _ (.cons he hk hes)
    simpa using this
  | closeParen => exact ⟨_, hts.append hus, hdone _ _ (.last he)⟩
  | _ => trivial

theorem writes_operator (h : p.AllWrite room)
    (hleft : p.Writes s left t) (ht : t.cursor < p.stream.body.size) {rule : InfixRule} {q : Power}
    (hrule : p.grammar.infixRule? (p.current t).kind = some rule)
    (hq : rule.rightPower? (p.grammar.power (p.current t).kind) = some q) :
    Ends (rule.apply p (p.expr room) left (p.current t))
      (noted (.continues (p.current t) power) (p.advanced t)) (p.Writes s) fun _ _ => True := by
  obtain ⟨ts, hts, hl⟩ := hleft
  have hread : p.Took t [(p.current t, .continuing)] _ :=
    .read (.continues (p.current t) power) ht rfl
  rw [ends_operator hq]
  refine ends_settle_ok fun operator hop => (h _ _).imp ?_ fun _ _ h => h
  rintro right v ⟨us, hus, hr⟩
  refine ⟨_, hts.append (hread.append hus), ?_⟩
  have hop := operatorOf_eq_ok hop
  cases rule with
  | leftAssociative => exact .binary (.inl hrule) hop hl hr
  | rightAssociative => exact .binary (.inr hrule) hop hl hr
  | juxtaposition => exact .juxtaposed hrule hop hl hr
  | call => cases hq

theorem writes_call (h : p.AllWrite room)
    (hleft : p.Writes s left t) (ht : t.cursor < p.stream.body.size)
    (hrule : p.grammar.infixRule? (p.current t).kind = some .call) :
    Ends (InfixRule.call.apply p (p.expr room) left (p.current t))
      (noted (.continues (p.current t) power) (p.advanced t)) (p.Writes s) fun _ _ => True := by
  obtain ⟨ts, hts, hl⟩ := hleft
  have hread : p.Took t [(p.current t, .continuing)] _ :=
    .read (.continues (p.current t) power) ht rfl
  rw [ends_call]
  refine ends_settle_ok fun _ hcallable => ?_
  have hname : left.isIdentifier = true := isIdentifier_of_callable hcallable
  rw [ends_argumentsOrNone]
  split
  · rename_i hu
    have hclose : p.Took _ [(_, .closing)] _ := .advanced (hu.trans_ne nofun) rfl
    have htook := hts.append (hread.append hclose)
    exact ⟨_, htook, .emptyCall hrule hl hname hu⟩
  · refine (writes_arguments h hread.spans.le).imp ?_ fun _ _ h => h
    rintro es v ⟨us, hus, hes⟩
    split
    · rename_i hu
      have hclose : p.Took v [(p.current v, .closing)] _ := .advanced (hu.trans_ne nofun) rfl
      exact ⟨_, hts.append (hread.append (hus.append hclose)), .call hrule hl hname hes hu⟩
    · trivial

theorem writes_continuation (h : p.AllWrite room) (hleft : p.Writes s left t) :
    Ends (p.continuation (p.expr room) power left) t (p.Writes s) fun _ _ => True := by
  rcases Nat.lt_or_ge t.cursor p.stream.body.size with ht | ht
  · rw [ends_continuation]
    cases hrule : p.grammar.infixRule? (p.current t).kind with
    | none => trivial
    | some rule =>
      cases hq : rule.rightPower? (p.grammar.power (p.current t).kind) with
      | some q => exact writes_operator h hleft ht hrule hq
      | none =>
        cases rule <;> cases hq
        exact writes_call h hleft ht hrule
  · exact (ends_continuation_behind ht).imp (fun _ _ => False.elim) fun _ _ h => h

theorem writes_beginning (hblank : p.stream.isBlank = false) (h : p.AllWrite room) (power : Power)
    (s : Progress) :
    Ends (p.beginning (p.expr room) power) s (p.Writes s) fun _ _ => True := by
  rcases Nat.lt_or_ge s.cursor p.stream.body.size with hs | hs
  · rw [ends_beginning]
    cases hrule : p.grammar.prefixRule? (p.current s).kind with
    | none => trivial
    | some rule => exact writes_prefixRule hblank h hs hrule
  · refine (ends_beginning_behind hs).imp (fun _ _ he => ?_) fun _ _ h => h
    rw [he.blank] at hblank
    cases hblank

theorem writes_phrase (hblank : p.stream.isBlank = false) (h : p.AllWrite room) (power : Power)
    (s : Progress) : Ends (p.phrase room power) s (p.Writes s) fun _ _ => True := by
  rw [ends_phrase]
  refine (writes_beginning hblank h power s).imp ?_ fun _ _ h => h
  exact fun left t hleft => ends_climb (forward_expr p room) (fun _ _ he _ => he)
    (fun _ _ he _ => writes_continuation h he) hleft

/-- Where there is more than the end to read, what is read is the text of the expression. -/
theorem writes_expr (hblank : p.stream.isBlank = false) (room : Nat) : p.AllWrite room := by
  induction room with
  | zero => exact fun power s => ends_expr_zero.mpr trivial
  | succ room ih =>
    intro power s
    rw [ends_expr_succ]
    have hphrase := writes_phrase hblank ih power { s with depth := s.depth + 1 }
    refine hphrase.imp ?_ fun _ _ h => h
    rintro e t ⟨ts, hts, he⟩
    exact ⟨ts, ⟨⟨hts.spans.shows, hts.spans.cursor, hts.spans.le⟩, hts.trace⟩, he⟩

end Parser

/-! ## Rows of tokens -/

/-- What became of the tokens that a parse has read: the first of the row, each with its part in
the expression. -/
structure Account (g : Grammar) (maxDepth : Nat) (tokens : List Token) (e : Expr)
    (ts : List (Token × Part)) : Prop where
  read : ∃ t, ReadsFirst g maxDepth tokens e t ∧ t.cursor = ts.length
  row : ts.map Prod.fst <+: (Stream.ofList tokens).body.toList
  spells : Spells g ts e
  /-- The rules applied are those of the tokens that make nodes or open groups. -/
  dispatched :
    (runTokens g maxDepth tokens).dispatches.map Dispatch.entry = ts.filterMap Part.entry?
  /-- The nodes are made at places of what was read that lie in order. -/
  increasing : (nodePlaces ts).Pairwise (· < ·)
  inside : ∀ i ∈ nodePlaces ts, i < ts.length
  makes : List.Forall₂
    (fun i node => ∃ t, (Stream.ofList tokens).body.toList[i]? = some t ∧ t.Makes node)
    (nodePlaces ts) e.walk
  /-- At every other place a group is opened, a group or a call is closed, or arguments are
  separated. -/
  others : ∀ i, i < ts.length → i ∉ nodePlaces ts →
    ∃ t part, ts[i]? = some (t, part) ∧ (Stream.ofList tokens).body.toList[i]? = some t ∧
      ((part = .opening ∧ g.prefixRule? t.kind = some .group ∧
          ∃ power, .begins t power ∈ (runTokens g maxDepth tokens).dispatches) ∨
        (part = .closing ∧ t.kind = .closeParen) ∨ (part = .separating ∧ t.kind = .comma))
  count_le : e.count ≤ (Stream.ofList tokens).body.size

section Rows

variable {g : Grammar} {maxDepth : Nat} {tokens : List Token} {e : Expr}

/-- Only a blank stream has the empty expression, and it has no other. -/
theorem isBlank_of_readsFirst {t : Progress} (h : ReadsFirst g maxDepth tokens e t)
    (hne : e ≠ .empty) : (Stream.ofList tokens).isBlank = false := by
  cases hblank : (Stream.ofList tokens).isBlank with
  | false => rfl
  | true =>
    have hsize : (Stream.ofList tokens).body.size = 0 := by simpa [Stream.isBlank] using hblank
    have hvacant := (Parser.ends_of_ok h.2).mp
      (Parser.ends_expr_behind (p := ⟨g, .ofList tokens, maxDepth⟩) (Nat.le_of_eq hsize))
    exact absurd hvacant.eq_empty hne

/-- By any grammar, an expression that is not empty has an account of the tokens read for it. -/
theorem parseTokens_account (h : parseTokens g maxDepth tokens = .ok e) (hne : e ≠ .empty) :
    ∃ ts, Account g maxDepth tokens e ts := by
  obtain ⟨t, hread, -⟩ := exists_readsFirst h
  obtain ⟨ts, hts, he⟩ := (Parser.ends_of_ok hread.2).mp
    (Parser.writes_expr (p := ⟨g, .ofList tokens, maxDepth⟩) (isBlank_of_readsFirst hread hne)
      maxDepth .default .start)
  have hcursor : t.cursor = ts.length := by
    rw [hts.spans.cursor, List.length_map]
    exact Nat.zero_add _
  have hsize : ts.length ≤ (Stream.ofList tokens).body.size := hcursor ▸ hts.spans.le
  have hrow : ts.map Prod.fst <+: (Stream.ofList tokens).body.toList := by
    have htokens : ts.map Prod.fst <+: (Stream.ofList tokens).tokens :=
      (List.prefix_append _ _).trans hts.spans.prefix_tokens
    refine List.prefix_of_prefix_length_le htokens (List.prefix_append _ _) ?_
    rw [List.length_map, Array.length_toList]
    exact hsize
  obtain ⟨ds, hds, hentries⟩ := hts.trace
  have hdispatches : (runTokens g maxDepth tokens).dispatches = ds := by
    rw [hread.runTokens_eq]
    dsimp only
    rw [hds]
    simp [Progress.start]
  have hmakes := forall₂_nodePlaces hrow he.makes
  refine ⟨ts, ⟨⟨t, hread, hcursor⟩, hrow, he, hdispatches ▸ hentries, nodePlaces_increasing, ?_,
    hmakes, ?_, ?_⟩⟩
  · intro i hi
    obtain ⟨u, part, hu, -⟩ := mem_nodePlaces.mp hi
    exact (List.getElem?_eq_some_iff.mp hu).1
  · intro i hi hnot
    have hu : ts[i]? = some (ts[i].1, ts[i].2) := List.getElem?_eq_getElem hi
    refine ⟨ts[i].1, ts[i].2, hu, getElem?_of_isPrefix hrow hu, ?_⟩
    have hmem : ts[i] ∈ ts := List.getElem_mem hi
    rw [hdispatches]
    refine he.role hentries.symm hmem (Bool.not_eq_true _ ▸ fun hnode => hnot ?_)
    exact mem_nodePlaces.mpr ⟨_, _, hu, hnode⟩
  · have hlength := hmakes.length_eq
    rw [Expr.length_walk] at hlength
    exact hlength ▸ Nat.le_trans length_nodePlaces_le hsize

/-- Names alone stand for themselves, a star opens a group and a slash the arguments of a call. -/
def starGroups : Grammar :=
  Grammar.empty.registerAll
    [.begins .identifier .operand, .begins .star .group, .continues .slash .call .call]

/-- The tokens of `*f)/x,y)`. -/
def starRow : List Token :=
  [.inLine .star "*" 1, .inLine .identifier "f" 2, .inLine .closeParen ")" 3,
    .inLine .slash "/" 4, .inLine .identifier "x" 5, .inLine .comma "," 6,
    .inLine .identifier "y" 7, .inLine .closeParen ")" 8]

/-- The call of `f` that the tokens are by those rules. -/
def starCall : Expr :=
  .call (.identifier "f" ⟨1, 2⟩) [.identifier "x" ⟨1, 5⟩, .identifier "y" ⟨1, 7⟩] ⟨1, 4⟩

theorem account_starRow :
    parseTokens starGroups 4 starRow = .ok starCall ∧ starCall ≠ .empty ∧
      ∃ ts, Account starGroups 4 starRow starCall ts := by
  have h : parseTokens starGroups 4 starRow = .ok starCall := by cbv
  have hne : starCall ≠ .empty := by simp [starCall]
  exact ⟨h, hne, parseTokens_account h hne⟩

end Rows

end Precedence

import Precedence.Proofs.Depth

/-!
# A parser in use

A caller need not parse a whole text: tokens can be read one by one, expressions at any power and
rules applied by hand, in any order and after faults as well (`Operation`). Whatever is done, the
parser keeps its stream, does not leave it and does not go back in it, and it counts no more levels
than the limit allows (`session_orderly`).

What reads an expression keeps the depth where it succeeds (`Parser.Keeps`); levels are left begun
by the faults inside them, and by a caller who enters one and does not leave it.
-/

namespace Precedence

namespace Parser

variable {p : Parser} {s : Progress}

theorem onward_exprHere (p : Parser) (power : Power) : Onward (p.exprHere power) :=
  fun s => onward_expr p (p.room s) power s

theorem ends_enter {good : Unit → Progress → Prop} {bad : Fault → Progress → Prop} :
    Ends p.enter s good bad ↔
      if s.depth < p.maxDepth then good () { s with depth := s.depth + 1 }
      else bad (p.tooDeep s) s := by
  unfold Ends enter deeper refuse tooDeep
  by_cases h : s.depth < p.maxDepth <;> simp only [h, if_true, if_false]

end Parser

/-! ## Operations -/

/-- What a caller can ask of a parser. -/
inductive Operation where
  | advance
  | expect (kind : TokenKind) (fault : Fault)
  | enter
  | leave
  | expr (power : Power)
  /-- A rule that begins an expression, applied to a token. -/
  | begins (rule : PrefixRule) (token : Token)
  /-- A rule that continues an expression, applied to a token. -/
  | continues (rule : InfixRule) (left : Expr) (token : Token)

/-- What a caller is answered. -/
inductive Answer where
  | done
  | token (token : Token)
  | expr (e : Expr)

namespace Operation

def perform (p : Parser) : Operation → ParseM Answer
  | advance => do return .token (← p.advance)
  | expect kind fault => do return .token (← p.expect kind fault)
  | enter => do p.enter; return .done
  | leave => do Parser.leave; return .done
  | expr power => do return .expr (← p.exprHere power)
  | begins rule token => do return .expr (← p.applyPrefix rule token)
  | continues rule left token => do return .expr (← p.applyInfix rule left token)

/-- Is an expression read, or what a rule makes one of? -/
def isReading : Operation → Bool
  | expr _ | begins _ _ | continues _ _ _ => true
  | advance | expect _ _ | enter | leave => false

/-- Is it decided before anything is done whether the operation succeeds? -/
def isGuarded : Operation → Bool
  | expect _ _ | enter => true
  | advance | leave | expr _ | begins _ _ | continues _ _ _ => false

variable {p : Parser} {s : Progress}

theorem onward_perform (p : Parser) (op : Operation) : Parser.Onward (op.perform p) := by
  have hforward := Parser.forward_exprHere p
  have honward := Parser.onward_exprHere p
  cases op with
  | advance => exact fun s => Parser.cursor_le_advanced p s
  | expect kind fault =>
    refine Parser.Onward.bind (fun s => ?_) fun _ => Parser.onward_pure _
    rw [Parser.Reaches, Parser.ends_expect]
    split
    · exact Parser.cursor_le_advanced p s
    · exact Nat.le_refl _
  | enter =>
    refine Parser.Onward.bind (fun s => ?_) fun _ => Parser.onward_pure _
    rw [Parser.Reaches, Parser.ends_enter]
    split <;> exact Nat.le_refl _
  | leave => exact Parser.onward_leave.bind fun _ => Parser.onward_pure _
  | expr power => exact (honward power).bind fun _ => Parser.onward_pure _
  | begins rule token =>
    exact (Parser.onward_prefixRule rule honward token).bind fun _ => Parser.onward_pure _
  | continues rule left token =>
    exact (Parser.onward_infixRule rule hforward honward left token).bind fun _ =>
      Parser.onward_pure _

/-- What reads an expression ends at the depth at which it began, or fails there or deeper. -/
theorem keeps_perform {d : Nat} (hd : d ≤ p.maxDepth) {op : Operation} (hop : op.isReading = true) :
    p.Keeps d (op.perform p) := by
  have hforward := Parser.forward_exprHere p
  have hkeeps := fun power => Parser.keeps_exprHere hd power
  cases op with
  | expr power => exact (hkeeps power).bind fun _ => Parser.keeps_pure _
  | begins rule token =>
    exact (Parser.keeps_prefixRule hd rule hkeeps token).bind fun _ => Parser.keeps_pure _
  | continues rule left token =>
    exact (Parser.keeps_infixRule hd rule hforward hkeeps left token).bind fun _ =>
      Parser.keeps_pure _
  | _ => cases hop

/-- What is guarded fails before it does anything. -/
theorem eq_of_perform_error {op : Operation} (hop : op.isGuarded = true) {fault : Fault}
    {t : Progress} (h : op.perform p s = .error fault t) : t = s := by
  suffices hends : Parser.Ends (op.perform p) s (fun _ _ => True) fun _ t => t = s from
    (Parser.ends_of_error h).mp hends
  cases op with
  | expect kind fault =>
    rw [perform, Parser.ends_bind, Parser.ends_expect]
    split
    · trivial
    · rfl
  | enter =>
    rw [perform, Parser.ends_bind, Parser.ends_enter]
    split
    · trivial
    · rfl
  | _ => cases hop

/-- No operation leaves the stream or the limit, whether it succeeds or fails. -/
theorem stopped_perform (h : p.Stopped 0 s) (op : Operation) :
    Parser.Ends (op.perform p) s (fun _ t => p.Stopped 0 t) fun _ t => p.Stopped 0 t := by
  obtain ⟨-, hdepth, hcursor⟩ := h
  have hadvanced : p.Stopped 0 (p.advanced s) :=
    ⟨Nat.zero_le _, by rwa [Parser.depth_advanced], Parser.cursor_advanced_le hcursor⟩
  by_cases hop : op.isReading = true
  · refine (keeps_perform hdepth hop s ⟨rfl, hcursor⟩).imp (fun a t ht => ?_) fun fault t ht => ?_
    · exact ⟨Nat.zero_le _, ht.1 ▸ hdepth, ht.2⟩
    · exact ⟨Nat.zero_le _, ht.2⟩
  cases op with
  | advance => exact hadvanced
  | expect kind fault =>
    rw [perform, Parser.ends_bind, Parser.ends_expect]
    split
    · exact hadvanced
    · exact ⟨Nat.zero_le _, hdepth, hcursor⟩
  | enter =>
    rw [perform, Parser.ends_bind, Parser.ends_enter]
    split
    · rename_i hlt
      exact ⟨Nat.zero_le _, hlt, hcursor⟩
    · exact ⟨Nat.zero_le _, hdepth, hcursor⟩
  | leave => exact ⟨Nat.zero_le _, Nat.le_trans (Nat.sub_le _ _) hdepth, hcursor⟩
  | _ => exact absurd rfl hop

end Operation

/-! ## Sessions -/

/-- A parser in use, and how far it has come. -/
structure Session where
  parser : Parser
  progress : Progress

namespace Session

def new (g : Grammar) (maxDepth : Nat) (tokens : List Token) : Session :=
  ⟨⟨g, .ofList tokens, maxDepth⟩, .start⟩

def perform (session : Session) (op : Operation) : EStateM.Result Fault Progress Answer :=
  op.perform session.parser session.progress

/-- The session goes on from where the operation has come, be it to an answer or to a fault. -/
def after (session : Session) (op : Operation) : Session :=
  match session.perform op with
  | .ok _ t | .error _ t => { session with progress := t }

def afterAll (session : Session) (ops : List Operation) : Session := ops.foldl after session

variable {g : Grammar} {maxDepth : Nat} {tokens : List Token} {session : Session}

theorem ends_after {op : Operation} {P : Session → Prop}
    (h : Parser.Ends (op.perform session.parser) session.progress
      (fun _ t => P { session with progress := t }) fun _ t => P { session with progress := t }) :
    P (session.after op) := by
  unfold after perform
  unfold Parser.Ends at h
  split at h <;> rename_i heq <;> rw [heq] <;> exact h

/-- The parser is the one that was made, in its stream and within its limit. -/
structure Kept (g : Grammar) (maxDepth : Nat) (tokens : List Token) (session : Session) :
    Prop where
  parser : session.parser = ⟨g, .ofList tokens, maxDepth⟩
  inside : session.parser.Stopped 0 session.progress

theorem kept_new (g : Grammar) (maxDepth : Nat) (tokens : List Token) :
    (new g maxDepth tokens).Kept g maxDepth tokens where
  parser := rfl
  inside := ⟨Nat.zero_le _, Nat.zero_le _, Nat.zero_le _⟩

theorem Kept.after (h : session.Kept g maxDepth tokens) (op : Operation) :
    (session.after op).Kept g maxDepth tokens := by
  refine ends_after ((op.stopped_perform h.inside).imp (fun _ t ht => ?_) fun _ t ht => ?_)
  · exact ⟨h.parser, ht⟩
  · exact ⟨h.parser, ht⟩

theorem Kept.afterAll (h : session.Kept g maxDepth tokens) (ops : List Operation) :
    (session.afterAll ops).Kept g maxDepth tokens := by
  induction ops generalizing session with
  | nil => exact h
  | cons op ops ih => exact ih (h.after op)

theorem cursor_le_after (session : Session) (op : Operation) :
    session.progress.cursor ≤ (session.after op).progress.cursor :=
  ends_after (P := fun later => session.progress.cursor ≤ later.progress.cursor)
    (op.onward_perform session.parser session.progress)

theorem cursor_le_afterAll (session : Session) (ops : List Operation) :
    session.progress.cursor ≤ (session.afterAll ops).progress.cursor := by
  induction ops generalizing session with
  | nil => exact Nat.le_refl _
  | cons op ops ih => exact Nat.le_trans (session.cursor_le_after op) (ih _)

/-- A session that has been made of tokens goes its way through them and keeps count of its
depth. -/
structure Orderly (g : Grammar) (maxDepth : Nat) (tokens : List Token) (session : Session) :
    Prop where
  /-- The parser is the one that was made. -/
  parser : session.parser = ⟨g, .ofList tokens, maxDepth⟩
  /-- Its tokens are those given, with a mark of the end behind them if they have none. -/
  stream : ∃ row last, session.parser.stream.tokens = row ++ [last] ∧ last.kind = .eof ∧
    (tokens = row ++ [last] ∨ tokens = row ∧ ∀ t ∈ tokens.getLast?, t.kind ≠ .eof)
  /-- The current token is one of them. -/
  current : session.parser.stream.tokens[min session.progress.cursor
    (session.parser.stream.tokens.length - 1)]? = some (session.parser.current session.progress)
  cursor : session.progress.cursor ≤ session.parser.stream.tokens.length
  depth : session.progress.depth ≤ maxDepth
  forward : ∀ ops, session.progress.cursor ≤ (session.afterAll ops).progress.cursor
  settles : ∀ op answer t, op.isReading = true → session.perform op = .ok answer t →
    t.depth = session.progress.depth
  deepens : ∀ op fault t, op.isReading = true → session.perform op = .error fault t →
    session.progress.depth ≤ t.depth
  refuses : ∀ op fault t, op.isGuarded = true → session.perform op = .error fault t →
    t = session.progress

end Session

theorem Stream.exists_row_ofList (tokens : List Token) :
    ∃ row last, (ofList tokens).tokens = row ++ [last] ∧ last.kind = .eof ∧
      (tokens = row ++ [last] ∨ tokens = row ∧ ∀ t ∈ tokens.getLast?, t.kind ≠ .eof) := by
  refine ⟨(ofList tokens).body.toList, (ofList tokens).last, rfl, (ofList tokens).last_kind, ?_⟩
  rcases List.eq_nil_or_concat tokens with rfl | ⟨row, t, rfl⟩
  · exact .inr ⟨rfl, nofun⟩
  rw [List.concat_eq_append]
  by_cases heof : t.kind = .eof
  · rw [ofList_concat heof]
    exact .inl rfl
  · exact .inr ⟨by simp [ofList, heof], by simpa using heof⟩

/-- Whatever has been asked of a parser, by any grammar and of any tokens, whether it succeeded or
failed. -/
theorem session_orderly (g : Grammar) (maxDepth : Nat) (tokens : List Token)
    (ops : List Operation) :
    ((Session.new g maxDepth tokens).afterAll ops).Orderly g maxDepth tokens := by
  obtain ⟨hparser, -, hdepth, hcursor⟩ :=
    (Session.kept_new g maxDepth tokens).afterAll ops
  generalize (Session.new g maxDepth tokens).afterAll ops = session at *
  have hreads : ∀ {op : Operation}, op.isReading = true →
      Parser.Ends (op.perform session.parser) session.progress
        (fun _ t => session.parser.Stands session.progress.depth t)
        fun _ t => session.parser.Stopped session.progress.depth t :=
    fun hop => Operation.keeps_perform hdepth hop _ ⟨rfl, hcursor⟩
  refine ⟨hparser, ?_, ?_, ?_, ?_, session.cursor_le_afterAll, ?_, ?_, ?_⟩
  · rw [hparser]
    exact Stream.exists_row_ofList tokens
  · rw [Stream.length_tokens, Nat.add_sub_cancel]
    exact Stream.getElem?_tokens_min _ _
  · rw [Stream.length_tokens]
    exact hcursor
  · rwa [hparser] at hdepth
  · intro op answer t hop ht
    exact ((Parser.ends_of_ok ht).mp (hreads hop)).1
  · intro op fault t hop ht
    exact ((Parser.ends_of_error ht).mp (hreads hop)).1
  · intro op fault t hop ht
    exact Operation.eq_of_perform_error hop ht

/-- Two groups are begun and the operand of the second is missing: of the three levels that are left
behind a caller can leave one. -/
example : ((Session.new .arithmetic 9 [.inLine .openParen "(" 1, .inLine .openParen "(" 2]).afterAll
    [.expr .default, .leave]).progress.depth = 2 := by cbv

end Precedence

import Precedence.Proofs.Blame
import Precedence.Proofs.Named

/-!
# The limit on nesting

A limit on nesting does nothing but cut a parse short (`parseTokens_onlyCuts`). A parse under a
smaller limit ends like one under a larger, or refuses a token; where the larger limit refuses a
token, the smaller one does too, and no later.

Nothing but the limit ever blames the nesting (`blames_expr`), and for arithmetic a limit as
large as the row, with its closing token, is never met.
-/

namespace Precedence

namespace Parser

variable {α : Type} {p : Parser} {s : Progress}

/-! ## What the nesting is blamed for -/

/-- A fault that blames the nesting is that of the limit, at the token where the parse stopped. -/
def BlamesLimit (p : Parser) (fault : Fault) (t : Progress) : Prop :=
  ∀ limit, fault.cause = .nestingTooDeep limit → fault = p.tooDeep t

section Blame

variable {fault : Fault} {t : Progress}

theorem blamesLimit_of_ne (h : ∀ limit, fault.cause ≠ .nestingTooDeep limit) :
    p.BlamesLimit fault t :=
  fun limit hlimit => absurd hlimit (h limit)

/-- What is read with so much room at any power blames the nesting for nothing but the limit. -/
def AllBlame (p : Parser) (room : Nat) : Prop :=
  ∀ power s, Ends (p.expr room power) s (fun _ _ => True) p.BlamesLimit

/-- Of the places where an expression may not be read, one blames the nesting. -/
theorem covers_blamesLimit (p : Parser) : p.Covers p.BlamesLimit where
  tooDeep _ _ _ := rfl
  unclosed _ := blamesLimit_of_ne nofun
  malformed _ := blamesLimit_of_ne nofun
  noPrefixRule _ _ := blamesLimit_of_ne nofun
  noInfixRule _ _ _ := blamesLimit_of_ne nofun
  begins s power rule fault _ hdeclines := by
    refine blamesLimit_of_ne fun limit hlimit => ?_
    cases rule with
    | operand => rcases cause_operandOf hdeclines with h | h <;> cases hlimit.symm.trans h
    | endOfInput => cases hlimit.symm.trans (cause_nothingBefore hdeclines)
    | sign =>
      obtain ⟨-, rfl⟩ := operatorOf_eq_error hdeclines
      cases hlimit
    | group => exact hdeclines
  continues s power rule left fault _ hdeclines := by
    refine blamesLimit_of_ne fun limit hlimit => ?_
    cases rule with
    | leftAssociative | rightAssociative | juxtaposition =>
      obtain ⟨-, rfl⟩ := operatorOf_eq_error hdeclines
      cases hlimit
    | call => cases hlimit.symm.trans (cause_callable hdeclines)

/-- Reading an expression blames the nesting for nothing but the limit. -/
theorem blames_expr (p : Parser) (room : Nat) : p.AllBlame room :=
  faults_expr (covers_blamesLimit p) room

end Blame

/-! ## Whole parses -/

variable {d : Nat}

theorem cutShort_whole (h : p.maxDepth ≤ d) :
    p.whole .start = (p.withLimit d).whole .start ∨
      ∃ t, p.whole .start = .error (p.tooDeep t) t ∧
        Reaches (p.withLimit d).whole .start t.cursor := by
  have hexpr := cutShort_expr p d h .default .start
  rcases hexpr with heq | ⟨t, ht, hreach⟩
  · left
    rw [whole_start, whole_start, exprHere_start, heq]
    rfl
  · refine .inr ⟨t, by rw [whole_start, exprHere_start, ht], ends_whole.mpr (hreach.imp_good ?_)⟩
    intro e u hu
    split <;> exact hu

theorem blames_whole : Ends p.whole .start (fun _ _ => True) p.BlamesLimit := by
  rw [ends_whole]
  refine (blames_expr p p.maxDepth .default .start).imp_good fun e t _ => ?_
  split
  · trivial
  · exact blamesLimit_of_ne nofun

end Parser

/-- A parser of arithmetic that may nest as deep as its row is long, with the closing token, never
refuses a token. -/
theorem Parser.cause_whole_ne {p : Parser} (hg : p.grammar = .arithmetic)
    (hdepth : p.stream.size ≤ p.maxDepth) {fault : Fault} (h : p.run.result = .error fault)
    (limit : Nat) : fault.cause ≠ .nestingTooDeep limit := by
  obtain ⟨ts, u, -, hblocked⟩ := exists_blocked_of_run_error hg hdepth h
  exact hblocked.cause_ne limit

/-! ## Rows of tokens -/

/-- The parse stops at the token of the index, the closing one at the end, because it lies too
deep. -/
structure RefusedAt (g : Grammar) (maxDepth : Nat) (tokens : List Token) (i : Nat) : Prop where
  fault : parseTokens g maxDepth tokens =
    .error ⟨.nestingTooDeep maxDepth, ((Stream.ofList tokens).token i).start⟩
  stops : ∃ fault t, Parser.whole ⟨g, .ofList tokens, maxDepth⟩ .start = .error fault t ∧
    i = min t.cursor (Stream.ofList tokens).body.size

/-- What a limit does to a parse that is held against one under a larger limit. -/
structure OnlyCuts (g : Grammar) (tokens : List Token) (d d' : Nat) : Prop where
  /-- The parse is cut short, or it ends the same way. -/
  same : (∃ position, parseTokens g d tokens = .error ⟨.nestingTooDeep d, position⟩) ∨
    parseTokens g d tokens = parseTokens g d' tokens
  /-- Where the larger limit refuses a token, the smaller one refuses it or one before it. -/
  earlier : ∀ limit position, parseTokens g d' tokens = .error ⟨.nestingTooDeep limit, position⟩ →
    limit = d' ∧ ∃ i i', i ≤ i' ∧ RefusedAt g d tokens i ∧ RefusedAt g d' tokens i' ∧
      position = ((Stream.ofList tokens).token i').start
  /-- Arithmetic needs no more levels than there are tokens, the closing one included. -/
  enough : g = .arithmetic → (Stream.ofList tokens).size ≤ d → ∀ limit position,
    parseTokens g d tokens ≠ .error ⟨.nestingTooDeep limit, position⟩

section Rows

variable {g : Grammar} {tokens : List Token} {d d' : Nat}

/-- Every token that is read is one of the row or the closing one. -/
theorem Stream.token_mem_tokens (w : Stream) (i : Nat) : w.token i ∈ w.tokens :=
  List.mem_of_getElem? (w.getElem?_tokens_min i)

theorem parseTokens_eq_whole (herror : ∀ t ∈ tokens, t.kind ≠ .error) :
    parseTokens g d tokens =
      match Parser.whole ⟨g, .ofList tokens, d⟩ .start with
      | .ok e _ => .ok e
      | .error fault _ => .error fault := by
  rw [parseTokens, runTokens_eq_run herror, Parser.run]
  cases Parser.whole ⟨g, .ofList tokens, d⟩ .start <;> rfl

/-- A parse that stops at a token too deep is refused that token. -/
theorem refusedAt_of_whole (herror : ∀ t ∈ tokens, t.kind ≠ .error) {t : Progress}
    (h : Parser.whole ⟨g, .ofList tokens, d⟩ .start =
      .error (Parser.tooDeep ⟨g, .ofList tokens, d⟩ t) t) :
    RefusedAt g d tokens (min t.cursor (Stream.ofList tokens).body.size) where
  fault := by
    rw [parseTokens_eq_whole herror, h, Stream.token_min]
    rfl
  stops := ⟨_, t, h, rfl⟩

/-- A row with a stray character blames that, whatever the limit. -/
theorem exists_parseTokens_eq_of_error (h : ¬ ∀ t ∈ tokens, t.kind ≠ .error) :
    ∃ t ∈ tokens, t.kind = .error ∧
      ∀ d, parseTokens g d tokens = .error ⟨.unrecognisedToken t.text, t.start⟩ := by
  obtain ⟨t, ht, hk, hall⟩ := exists_runTokens_eq_of_error h
  exact ⟨t, ht, hk, fun d => by rw [parseTokens, hall]⟩

/-- A fault that blames the nesting is that of a token refused. -/
theorem refusedAt_of_parseTokens {limit : Nat} {position : Position}
    (h : parseTokens g d tokens = .error ⟨.nestingTooDeep limit, position⟩) :
    limit = d ∧ ∃ t, Parser.whole ⟨g, .ofList tokens, d⟩ .start =
        .error (Parser.tooDeep ⟨g, .ofList tokens, d⟩ t) t ∧
      position = ((Stream.ofList tokens).token t.cursor).start := by
  by_cases herror : ∀ t ∈ tokens, t.kind ≠ .error
  · rw [parseTokens_eq_whole herror] at h
    cases hw : Parser.whole ⟨g, .ofList tokens, d⟩ .start with
    | ok e t => rw [hw] at h; cases h
    | error fault t =>
      rw [hw] at h
      cases h
      have hblame := (Parser.ends_of_error hw).mp Parser.blames_whole limit rfl
      cases hblame
      exact ⟨rfl, t, rfl, rfl⟩
  · obtain ⟨t, -, -, hall⟩ := exists_parseTokens_eq_of_error (g := g) herror
    rw [hall d] at h
    cases h

/-- A limit on nesting cuts a parse short, and does nothing else. -/
theorem parseTokens_onlyCuts (h : d ≤ d') : OnlyCuts g tokens d d' := by
  by_cases herror : ∀ t ∈ tokens, t.kind ≠ .error
  · have hsame : Parser.whole ⟨g, .ofList tokens, d⟩ .start =
        Parser.whole ⟨g, .ofList tokens, d'⟩ .start →
        parseTokens g d tokens = parseTokens g d' tokens := fun heq => by
      rw [parseTokens_eq_whole herror, parseTokens_eq_whole herror, heq]
    have hcut := Parser.cutShort_whole (p := ⟨g, .ofList tokens, d⟩) h
    refine ⟨?_, ?_, ?_⟩
    · rcases hcut with heq | ⟨t, ht, -⟩
      · exact .inr (hsame heq)
      · exact .inl ⟨_, (refusedAt_of_whole herror ht).fault⟩
    · intro limit position hdeep
      obtain ⟨rfl, u, hu, rfl⟩ := refusedAt_of_parseTokens hdeep
      have hrefused := refusedAt_of_whole herror hu
      have hplace := congrArg Token.start ((Stream.ofList tokens).token_min u.cursor)
      refine ⟨rfl, ?_⟩
      rcases hcut with heq | ⟨t, ht, hreach⟩
      · -- A token refused under both limits in one and the same way is refused under one limit.
        obtain ⟨rfl, -⟩ := refusedAt_of_parseTokens ((hsame heq).trans hdeep)
        exact ⟨_, _, Nat.le_refl _, hrefused, hrefused, hplace.symm⟩
      · have hle : t.cursor ≤ u.cursor := (Parser.ends_of_error hu).mp hreach
        exact ⟨_, _, by omega, refusedAt_of_whole herror ht, hrefused, hplace.symm⟩
    · rintro rfl hsize limit position hdeep
      rw [parseTokens, runTokens_eq_run herror] at hdeep
      exact Parser.cause_whole_ne rfl hsize hdeep limit rfl
  · obtain ⟨t, -, -, hall⟩ := exists_parseTokens_eq_of_error (g := g) herror
    have hne : ∀ d limit position,
        parseTokens g d tokens ≠ .error ⟨.nestingTooDeep limit, position⟩ := by
      intro d limit position hdeep
      rw [hall d] at hdeep
      cases hdeep
    exact ⟨.inr ((hall d).trans (hall d').symm), fun _ _ hdeep => absurd hdeep (hne _ _ _),
      fun _ _ => hne d⟩

/-- The tokens of `--(x` . -/
def signedGroup : List Token :=
  [.inLine .dash "-" 1, .inLine .dash "-" 2, .inLine .openParen "(" 3, .inLine .identifier "x" 4]

/-- Where three levels are too few for the name, two are too few for the parenthesis. -/
theorem onlyCuts_signedGroup :
    2 ≤ 3 ∧ parseTokens .arithmetic 3 signedGroup = .error ⟨.nestingTooDeep 3, ⟨1, 4⟩⟩ ∧
      parseTokens .arithmetic 2 signedGroup = .error ⟨.nestingTooDeep 2, ⟨1, 3⟩⟩ ∧
      OnlyCuts .arithmetic signedGroup 2 3 :=
  ⟨by decide, by cbv, by cbv, parseTokens_onlyCuts (by decide)⟩

end Rows

end Precedence

import Precedence.Parse
import Precedence.Proofs.Shows

/-!
# Whole parses

What holds of the parser where it stops holds of the outcome of the parse (`run_of_ends`), and a
list of tokens without a stray character is parsed as its stream is (`runTokens_eq_run`). With
these two, what is said of a parse of tokens comes down to how a step of the parser ends.
-/

namespace Precedence

namespace Parser

variable {p : Parser} {good : Expr → Progress → Prop} {bad : Fault → Progress → Prop}

/-- At the start the whole of the limit is left. -/
theorem exprHere_start (p : Parser) (power : Power) :
    p.exprHere power .start = p.expr p.maxDepth power .start := rfl

/-- A whole parse is one expression and a look at the token behind it. -/
theorem whole_start (p : Parser) : p.whole .start =
    match p.exprHere .default .start with
    | .error fault t => .error fault t
    | .ok e t =>
      if (p.current t).kind = .eof then .ok e t
      else .error ⟨.unusedTokens (p.current t).text, (p.current t).start⟩ t := by
  simp only [whole, bind, EStateM.bind, hasTokens_iff, ite_not]
  cases p.exprHere .default .start <;> rfl

/-- A whole parse is one expression with no limit on what may follow but the end. -/
theorem ends_whole :
    Ends p.whole .start good bad ↔
      Ends (p.expr p.maxDepth .default) .start (fun e t =>
        if (p.current t).kind = .eof then good e t
        else bad ⟨.unusedTokens (p.current t).text, (p.current t).start⟩ t) bad := by
  simp only [Ends, whole_start, exprHere_start]
  cases p.expr p.maxDepth .default .start with
  | error fault t => exact Iff.rfl
  | ok e t => by_cases h : (p.current t).kind = .eof <;> simp only [h, if_true, if_false]

/-- What holds where a whole parse stops holds of its outcome. -/
theorem run_of_ends (h : Ends p.whole .start good bad) :
    ∃ t : Progress, p.run.dispatches = t.trace.reverse ∧
      match p.run.result with
      | .ok e => good e t
      | .error fault => bad fault t := by
  unfold Ends at h
  unfold run
  cases hw : p.whole .start with
  | ok e t => rw [hw] at h; exact ⟨t, rfl, h⟩
  | error fault t => rw [hw] at h; exact ⟨t, rfl, h⟩

theorem run_eq_ok {e : Expr} (h : Ends p.whole .start (fun e' _ => e' = e) fun _ _ => False) :
    p.run.result = .ok e := by
  obtain ⟨t, -, hrun⟩ := run_of_ends h
  cases hr : p.run.result with
  | ok e' => rw [hr] at hrun; rw [hrun]
  | error fault => rw [hr] at hrun; exact hrun.elim

theorem run_eq_error {fault : Fault}
    (h : Ends p.whole .start (fun _ _ => False) fun fault' _ => fault' = fault) :
    p.run.result = .error fault := by
  obtain ⟨t, -, hrun⟩ := run_of_ends h
  cases hr : p.run.result with
  | ok e => rw [hr] at hrun; exact hrun.elim
  | error fault' => rw [hr] at hrun; rw [hrun]

end Parser

/-! ## Lists of tokens -/

variable {g : Grammar} {maxDepth : Nat} {tokens : List Token}

theorem runTokens_eq_run (h : ∀ t ∈ tokens, t.kind ≠ .error) :
    runTokens g maxDepth tokens = Parser.run ⟨g, .ofList tokens, maxDepth⟩ := by
  have hnone : tokens.find? (·.kind = .error) = none :=
    List.find?_eq_none.mpr fun t ht => by simpa using h t ht
  rw [runTokens, hnone]

/-- A stray character stops a parse before it starts. -/
theorem exists_runTokens_eq_of_error (h : ¬ ∀ t ∈ tokens, t.kind ≠ .error) :
    ∃ t ∈ tokens, t.kind = .error ∧ ∀ g maxDepth,
      runTokens g maxDepth tokens = ⟨.error ⟨.unrecognisedToken t.text, t.start⟩, []⟩ := by
  cases hf : tokens.find? (·.kind = .error) with
  | some t =>
    refine ⟨t, List.mem_of_find?_eq_some hf, by simpa using List.find?_some hf, fun g d => ?_⟩
    rw [runTokens, hf]
  | none => exact absurd (fun t ht => by simpa using List.find?_eq_none.mp hf t ht) h

theorem kind_ne_error_of_ok {e : Expr} (h : (runTokens g maxDepth tokens).result = .ok e) :
    ∀ t ∈ tokens, t.kind ≠ .error := by
  by_contra herror
  obtain ⟨t, -, -, hall⟩ := exists_runTokens_eq_of_error herror
  rw [hall] at h
  cases h

/-! ## The first expression -/

/-- The tokens are parsed at all, and the parse has read the expression when it comes to `t`. -/
def ReadsFirst (g : Grammar) (maxDepth : Nat) (tokens : List Token) (e : Expr) (t : Progress) :
    Prop :=
  (∀ u ∈ tokens, u.kind ≠ .error) ∧
    Parser.exprHere ⟨g, .ofList tokens, maxDepth⟩ .default .start = .ok e t

variable {e : Expr} {t : Progress}

/-- The token behind the expression decides. -/
theorem ReadsFirst.runTokens_eq (h : ReadsFirst g maxDepth tokens e t) :
    runTokens g maxDepth tokens =
      ⟨if ((Stream.ofList tokens).token t.cursor).kind = .eof then .ok e
        else .error ⟨.unusedTokens ((Stream.ofList tokens).token t.cursor).text,
          ((Stream.ofList tokens).token t.cursor).start⟩, t.trace.reverse⟩ := by
  obtain ⟨herror, hread⟩ := h
  rw [runTokens_eq_run herror, Parser.run, Parser.whole_start, hread]
  dsimp only [Parser.current]
  by_cases hend : ((Stream.ofList tokens).token t.cursor).kind = .eof
  · simp only [hend, if_true]
  · simp only [hend, if_false]

/-- What is accepted is the first expression, read up to a mark of the end. -/
theorem exists_readsFirst (h : parseTokens g maxDepth tokens = .ok e) :
    ∃ t, ReadsFirst g maxDepth tokens e t ∧
      ((Stream.ofList tokens).token t.cursor).kind = .eof := by
  have herror := kind_ne_error_of_ok h
  rw [parseTokens, runTokens_eq_run herror] at h
  cases hread : Parser.exprHere ⟨g, .ofList tokens, maxDepth⟩ .default .start with
  | error fault t =>
    rw [Parser.run, Parser.whole_start, hread] at h
    cases h
  | ok e' t =>
    have hparse := congrArg Outcome.result (ReadsFirst.runTokens_eq ⟨herror, hread⟩)
    rw [runTokens_eq_run herror, h] at hparse
    dsimp only at hparse
    split at hparse
    · rename_i hend
      cases hparse
      exact ⟨t, ⟨herror, hread⟩, hend⟩
    · cases hparse

end Precedence

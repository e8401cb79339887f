import Precedence.Proofs.Diagnostics
import Precedence.Proofs.Numbers

/-!
# What a text is never blamed for

Two faults of the parser are for tokens made by hand. A number token of a text holds a numeral, and
every numeral is read, so no number is refused; and by the rules of arithmetic whatever binds
continues an expression and, where its rule asks for an operator, means one
(`Grammar.MeansOperators`). What is left for the parser lies in the order of the tokens. So a fault
lies in the characters exactly if scanning has found it, and then it is the first one found
(`TextFaults`).

The numbers of a text have no sign and none of them is `nan`. Therefore results of parsing the same
text are equal, which results of parsing the same tokens need not be (`textFaults_scan`).
-/

namespace Precedence

variable {source : String} {maxDepth : Nat} {fault : Fault} {e : Expr} {ts : List Token} {u : Token}

/-! ## Numbers that are not read -/

mutual

/-- A number is refused only if its text is that of no number. -/
theorem Stuck.ofString?_eq_none : ∀ {power ts u fault}, Stuck power ts u fault → ∀ text,
    fault.cause = .numberParseError text → Binary64.ofString? u.text = none
  | _, _, _, _, .badNumber _ hv => fun _ _ => hv
  | _, _, _, _, .noRule _ | _, _, _, _, .ended _ | _, _, _, _, .openGroup ..
  | _, _, _, _, .notCallable .. => nofun
  | _, _, _, _, .signed _ h | _, _, _, _, .group _ h | _, _, _, _, .operand _ _ _ h
  | _, _, _, _, .call _ _ _ _ h => h.ofString?_eq_none

theorem StuckArguments.ofString?_eq_none : ∀ {ts u fault}, StuckArguments ts u fault → ∀ text,
    fault.cause = .numberParseError text → Binary64.ofString? u.text = none
  | _, _, _, .delimiter _ | _, _, _, .unclosed .. | _, _, _, .malformed .. => nofun
  | _, _, _, .argument _ h | _, _, _, .cons _ _ h => h.ofString?_eq_none

end

theorem Blocked.ofString?_eq_none (h : Blocked ts u fault) (text : String)
    (hcause : fault.cause = .numberParseError text) : Binary64.ofString? u.text = none := by
  cases h with
  | stuck h => exact h.ofString?_eq_none text hcause
  | unused => cases hcause

/-! ## Operators -/

/-- Whatever binds continues an expression, and where the rule of a token asks for an operator, the
token means one. -/
structure Grammar.MeansOperators (g : Grammar) : Prop where
  continued : ∀ kind, .default < g.power kind → ∃ rule, g.infixRule? kind = some rule
  operator : ∀ kind rule, g.infixRule? kind = some rule → rule ≠ .call →
    ∃ operator, Operator.ofKind? kind = some operator
  sign : ∀ kind, g.prefixRule? kind = some .sign → ∃ operator, Operator.ofKind? kind = some operator

theorem meansOperators_arithmetic : Grammar.arithmetic.MeansOperators where
  continued kind h := by
    cases kind with
    | equals | notEquals | plus | dash | star | slash | implicitStar | caret | openParen =>
      exact ⟨_, rfl⟩
    | _ => exact absurd h (by decide)
  operator kind rule h hcall := by
    cases kind with
    | equals | notEquals | plus | dash | star | slash | implicitStar | caret => exact ⟨_, rfl⟩
    | openParen =>
      obtain rfl : .call = rule := Option.some.inj h
      exact absurd rfl hcall
    | _ => cases h
  sign kind h := by
    cases kind with
    | plus | dash => exact ⟨_, rfl⟩
    | _ => cases h

/-! ## Texts -/

/-- The parser refuses no number of a text and finds nothing else in its characters. -/
theorem isLexical_eq_false (herror : ∀ t ∈ tokensOf (scan source), t.kind ≠ .error)
    (h : parseTokens .arithmetic maxDepth (tokensOf (scan source)) = .error fault) :
    fault.cause.isLexical = false ∧ ∀ text, fault.cause ≠ .noInfixRule text := by
  by_cases hdeep : ∃ limit, fault.cause = .nestingTooDeep limit
  · obtain ⟨limit, hcause⟩ := hdeep
    rw [hcause]
    exact ⟨rfl, fun _ h => by cases h⟩
  obtain ⟨ts, u, hrow, hblocked⟩ := exists_blocked_of_parseTokens herror
    (fun limit hc => hdeep ⟨limit, hc⟩) h
  rw [tokens_ofList_scan] at hrow
  have hnames := hblocked.names
  cases hcause : fault.cause with
  | numberParseError text =>
    rw [hcause] at hnames
    have hnumeral := isNumeral_of_number (hrow.subset (by simp)) hnames.2
    obtain ⟨m, hread, -⟩ := hnumeral.exists_read
    have hnone := hblocked.ofString?_eq_none text hcause
    rw [Binary64.ofString?, hread] at hnone
    cases hnone
  | unrecognisedToken | malformedNumber | noInfixRule =>
    rw [hcause] at hnames
    exact hnames.elim
  | _ => exact ⟨rfl, fun _ h => by cases h⟩

/-- A text is blamed for its first stray character, or, if it has none, by the parser. -/
theorem cause_of_parseWithin (h : parseWithin maxDepth source = .error fault) :
    (∃ rest, faultsOf (scan source) = fault :: rest ∧ fault.cause.IsStray) ∨
      (faultsOf (scan source) = [] ∧ fault.cause.isLexical = false ∧
        ∀ text, fault.cause ≠ .noInfixRule text) := by
  unfold parseWithin tokenize at h
  cases hscan : faultsOf (scan source) with
  | nil =>
    rw [hscan] at h
    exact .inr ⟨rfl, isLexical_eq_false (kind_ne_error_of_faultsOf_eq_nil hscan) h⟩
  | cons first rest =>
    rw [hscan] at h
    obtain rfl : first = fault := Except.error.inj h
    have hmem : first ∈ faultsOf (scan source) := hscan ▸ List.mem_cons_self
    exact .inl ⟨rest, rfl, isStray_of_mem_faultsOf hmem⟩

/-- No number of a text is `nan`. -/
theorem equal_self_of_parseWithin (h : parseWithin maxDepth source = .ok e) :
    e.equal e = true := by
  have hcounts := counts_of_parseWithin h
  have hne : ∀ t n, Token.Counts t n → (True ↔ n.1 ≠ .nan) := by
    intro t n hn
    obtain ⟨size, hsize⟩ := hn.unsigned
    rw [hsize]
    exact iff_of_true trivial nofun
  exact e.equal_self_iff.mpr ((forall_iff_of_forall₂ hcounts hne).mp fun _ _ => trivial)

/-- What can be wrong with a text, and that its result equals itself. -/
structure TextFaults (source : String) (maxDepth : Nat) : Prop where
  /-- Every number is read, and has no sign. -/
  numerals : ∀ t ∈ numerals (tokensOf (scan source)),
    ∃ size, Binary64.ofString? t.text = some (.signed false size)
  never : ∀ fault, parseWithin maxDepth source = .error fault → ∀ text,
    fault.cause ≠ .numberParseError text ∧ fault.cause ≠ .noInfixRule text
  /-- What lies in the characters has been found by scanning. -/
  lexical : ∀ fault, parseWithin maxDepth source = .error fault →
    (fault.cause.isLexical = true ↔ faultsOf (scan source) ≠ [])
  first : ∀ fault rest, faultsOf (scan source) = fault :: rest →
    parseWithin maxDepth source = .error fault
  equal_self : equalResults (parseWithin maxDepth source) (parseWithin maxDepth source) = true

theorem textFaults (source : String) (maxDepth : Nat) : TextFaults source maxDepth where
  numerals t ht := by
    obtain ⟨hmem, hk⟩ := List.mem_filter.mp ht
    obtain ⟨m, hread, -⟩ := (isNumeral_of_number hmem (by simpa using hk)).exists_read
    exact ⟨m, hread⟩
  never fault h text := by
    rcases cause_of_parseWithin h with ⟨-, -, word, hcause | hcause⟩ | ⟨-, hlexical, hinfix⟩
    · rw [hcause]
      exact ⟨nofun, nofun⟩
    · rw [hcause]
      exact ⟨nofun, nofun⟩
    · refine ⟨fun hcause => ?_, hinfix text⟩
      rw [hcause] at hlexical
      cases hlexical
  lexical fault h := by
    rcases cause_of_parseWithin h with ⟨rest, hscan, word, hcause⟩ | ⟨hscan, hlexical, -⟩
    · rw [hscan]
      exact iff_of_true (by rcases hcause with hcause | hcause <;> rw [hcause] <;> rfl) nofun
    · rw [hscan, hlexical]
      exact iff_of_false nofun (absurd rfl)
  first fault rest hscan := by
    rw [parseWithin, tokenize, hscan]
    rfl
  equal_self := by
    cases h : parseWithin maxDepth source with
    | ok e => exact equal_self_of_parseWithin h
    | error fault => simp [equalResults]

/-- Whatever the text and the limit on nesting, no number is refused and no operator is missing, a
fault lies in the characters exactly if scanning has found it, and the result equals itself. The
result for a token `nan` does not. -/
theorem textFaults_scan :
    Grammar.arithmetic.MeansOperators ∧
      (∀ source maxDepth, TextFaults source maxDepth) ∧
      equalResults (parseTokens .arithmetic defaultMaxDepth [.inLine .number "nan" 1])
        (parseTokens .arithmetic defaultMaxDepth [.inLine .number "nan" 1]) = false :=
  ⟨meansOperators_arithmetic, textFaults, by decide +kernel⟩

end Precedence

import Precedence.Proofs.Complete

/-!
# Where an expression cannot go on

The other half of the grammar: which tokens begin an expression of arithmetic, which token behind
them no longer does, and how it is reported (`Stuck`). It is said by the tokens up to the offending
one and nothing else, so what stands behind that token has no say in it.

Two facts bring this together with the grammar and with the parser. The tokens before the
offending one can be completed to an expression (`Stuck.exists_derives`), so it is not reported too
late; and the parser fails on them, whatever follows (`Stuck.fails`), so it is not reported too
early.
-/

namespace Precedence

mutual

/-- An expression read at the power takes the tokens `ts`, cannot take `u` and says so. -/
inductive Stuck : Power → List Token → Token → Fault → Prop
  | noRule {power} {u : Token} (h : Grammar.arithmetic.prefixRule? u.kind = none) :
      Stuck power [] u ⟨.noPrefixRule u.text, u.start⟩
  | badNumber {power} {u : Token} (hk : u.kind = .number)
      (hv : Binary64.ofString? u.text = none) :
      Stuck power [] u ⟨.numberParseError u.text, u.start⟩
  | ended {power} {u : Token} (hk : u.kind = .eof) :
      Stuck power [] u ⟨.incompleteExpression, u.start⟩
  | signed {power ts u fault} {t : Token} (hk : t.kind = .plus ∨ t.kind = .dash)
      (h : Stuck .unary ts u fault) : Stuck power (t :: ts) u fault
  | group {power ts u fault} {t : Token} (hk : t.kind = .openParen)
      (h : Stuck .default ts u fault) : Stuck power (t :: ts) u fault
  | openGroup {power ts e} {t u : Token} (hk : t.kind = .openParen)
      (he : Derives .comparison ts e) (hend : Grammar.arithmetic.power u.kind ≤ .default)
      (hu : u.kind ≠ .closeParen) :
      Stuck power (t :: ts) u ⟨.missingClosingParen u.describe, u.start⟩
  | operand {power ts us u left fault} {level : Level} {t : Token}
      (hl : Derives level.leftOperand ts left) (hk : t.kind ∈ level.operators)
      (hp : (Level.ofPower power).rank ≤ level.rank) (h : Stuck level.follow us u fault) :
      Stuck power (ts ++ t :: us) u fault
  | notCallable {power ts f} {u : Token} (hf : Derives .atom ts f)
      (hname : f.isIdentifier = false) (hk : u.kind = .openParen) :
      Stuck power ts u ⟨.notCallable f.text, u.start⟩
  | call {power ts us u f fault} {t : Token} (hf : Derives .atom ts f)
      (hname : f.isIdentifier = true) (hk : t.kind = .openParen)
      (hopen : ∀ v, (us ++ [u]).head? = some v → v.kind ≠ .closeParen)
      (h : StuckArguments us u fault) : Stuck power (ts ++ t :: us) u fault

/-- The arguments of a call, from one of them on, take the tokens `ts`, cannot take `u` and say
so. -/
inductive StuckArguments : List Token → Token → Fault → Prop
  | delimiter {u : Token} (h : u.isOneOf [.comma, .closeParen] = true) :
      StuckArguments [] u ⟨.malformedArguments u.describe, u.start⟩
  | argument {ts u fault}
      (hopen : ∀ v, (ts ++ [u]).head? = some v → ¬ v.isOneOf [.comma, .closeParen] = true)
      (h : Stuck .default ts u fault) : StuckArguments ts u fault
  | unclosed {ts e} {u : Token} (he : Derives .comparison ts e) (hu : u.kind = .eof) :
      StuckArguments ts u ⟨.missingClosingParen u.describe, u.start⟩
  | malformed {ts e} {u : Token} (he : Derives .comparison ts e)
      (hend : Grammar.arithmetic.power u.kind ≤ .default)
      (hu : u.kind ≠ .comma ∧ u.kind ≠ .closeParen ∧ u.kind ≠ .eof) :
      StuckArguments ts u ⟨.malformedArguments u.describe, u.start⟩
  | cons {ts us u e fault} {t : Token} (he : Derives .comparison ts e) (hk : t.kind = .comma)
      (h : StuckArguments us u fault) : StuckArguments (ts ++ t :: us) u fault

end

/-! ## What is stuck was on its way -/

/-- A name, for where an operand is missing. -/
def Token.sampleName : Token := ⟨.identifier, "x", .point .origin⟩

/-- A closing parenthesis, for where one is missing. -/
def Token.sampleClose : Token := ⟨.closeParen, ")", .point .origin⟩

theorem derives_sampleName : Derives .atom [.sampleName] (.identifier "x" .origin) :=
  .identifier rfl

mutual

/-- The tokens taken before the offending one are the beginning of an expression. -/
theorem Stuck.exists_derives : ∀ {power ts u fault}, Stuck power ts u fault →
    ∃ rest e, Derives (Level.ofPower power) (ts ++ rest) e
  | power, _, _, _, .noRule _ | power, _, _, _, .badNumber .. | power, _, _, _, .ended _ =>
      ⟨[.sampleName], _, derives_sampleName.loosen (Level.rank_ofPower_le_atom power)⟩
  | power, _, _, _, .signed hk h => by
      obtain ⟨rest, e, he⟩ := h.exists_derives
      obtain ⟨operator, hop⟩ := Operator.exists_of_sign hk
      exact ⟨rest, _, (Derives.signed hk hop he).loosen (Level.rank_ofPower_le_sign power)⟩
  | power, _, _, _, .group hk h => by
      obtain ⟨rest, e, he⟩ := h.exists_derives
      have hgroup := Derives.group (u := .sampleClose) hk he rfl
      rw [List.append_assoc] at hgroup
      exact ⟨_, _, hgroup.loosen (Level.rank_ofPower_le_atom power)⟩
  | power, _, _, _, .openGroup hk he _ _ =>
      ⟨[.sampleClose], _, (Derives.group hk he rfl).loosen (Level.rank_ofPower_le_atom power)⟩
  | power, _, _, _, .operand hl hk hp h => by
      obtain ⟨rest, e, he⟩ := h.exists_derives
      obtain ⟨rule, operator, ho⟩ := Level.operates_of_mem hk
      rw [ho.right] at he
      have hwhole := Derives.operation hk ho.ofKind? hl he
      rw [← List.cons_append, ← List.append_assoc] at hwhole
      exact ⟨rest, _, hwhole.loosen hp⟩
  | power, _, _, _, .notCallable hf _ _ =>
      ⟨[], _, by rw [List.append_nil]; exact hf.loosen (Level.rank_ofPower_le_atom power)⟩
  | power, _, _, _, .call hf hname hk _ h => by
      obtain ⟨rest, es, hes⟩ := h.exists_derives
      have hcall := Derives.call (u := .sampleClose) hf hname hk hes rfl
      rw [List.append_assoc, ← List.cons_append, ← List.append_assoc] at hcall
      exact ⟨_, _, hcall.loosen (Level.rank_ofPower_le_atom power)⟩

theorem StuckArguments.exists_derives : ∀ {ts u fault}, StuckArguments ts u fault →
    ∃ rest es, DerivesArguments (ts ++ rest) es
  | _, _, _, .delimiter _ => ⟨[.sampleName], _, .last (derives_sampleName.loosen (by decide))⟩
  | _, _, _, .argument _ h => by
      obtain ⟨rest, e, he⟩ := h.exists_derives
      exact ⟨rest, [e], .last he⟩
  | _, _, _, .unclosed he _ | _, _, _, .malformed he _ _ =>
      ⟨[], _, by rw [List.append_nil]; exact .last he⟩
  | _, _, _, .cons he hk h => by
      obtain ⟨rest, es, hes⟩ := h.exists_derives
      have hcons := DerivesArguments.cons he hk hes
      rw [← List.cons_append, ← List.append_assoc] at hcons
      exact ⟨rest, _, hcons⟩

end

/-! ## What is stuck fails -/

namespace Parser

/-- Where the stream shows the tokens and the offending one, the parser fails with the fault. -/
def Fails (p : Parser) (power : Power) (ts : List Token) (u : Token) (fault : Fault) : Prop :=
  ∀ ⦃s : Progress⦄ ⦃room : Nat⦄ ⦃good : Expr → Progress → Prop⦄ ⦃bad : Fault → Progress → Prop⦄,
    p.stream.Shows s.cursor (ts ++ [u]) → ts.length < room → power < .call →
    (∀ t, bad fault t) → Ends (p.expr room power) s good bad

def FailsArguments (p : Parser) (ts : List Token) (u : Token) (fault : Fault) : Prop :=
  ∀ ⦃s : Progress⦄ ⦃room : Nat⦄ ⦃good : List Expr → Progress → Prop⦄
    ⦃bad : Fault → Progress → Prop⦄,
    p.stream.Shows s.cursor (ts ++ [u]) → ts.length < room →
    (∀ t, bad fault t) → Ends (p.arguments (p.expr room .default)) s good bad

variable {p : Parser} {s : Progress} {power : Power} {room : Nat} {level : Level}
  {ts us : List Token} {t u : Token} {e f : Expr} {fault : Fault}
  {good : Expr → Progress → Prop} {bad : Fault → Progress → Prop}

theorem fails_of_beginning
    (h : ∀ ⦃s room good⦄ ⦃bad : Fault → Progress → Prop⦄, p.stream.Shows s.cursor (ts ++ [u]) →
      ts.length ≤ room → (∀ t, bad fault t) →
      Ends (p.beginning (p.expr room) power) s good bad) : p.Fails power ts u fault := by
  intro s room good bad hshow hroom hcall hbad
  obtain ⟨r, rfl⟩ : ∃ r, room = r + 1 := ⟨room - 1, by omega⟩
  rw [ends_expr_succ, ends_phrase]
  exact h hshow (by omega) hbad

/-- An expression fails where it begins with another that cannot be continued as it should. -/
theorem fails_of_climb (hl : p.Reads ts.length level ts e)
    (hlevel : (Level.ofPower power).rank ≤ level.rank)
    (hfollow : ∀ v, (us ++ [u]).head? = some v → Grammar.arithmetic.power v.kind ≤ level.follow)
    (h : ∀ ⦃s room good⦄ ⦃bad : Fault → Progress → Prop⦄, p.stream.Shows s.cursor (us ++ [u]) →
      us.length ≤ room → power < .call → (∀ t, bad fault t) →
      Ends (p.climb (p.expr room) power e) s good bad) :
    p.Fails power (ts ++ us) u fault := by
  intro s room good bad hshow hroom hcall hbad
  rw [List.append_assoc] at hshow
  obtain ⟨hts, hus⟩ := Stream.shows_append.mp hshow
  rw [List.length_append] at hroom
  obtain ⟨r, rfl⟩ : ∃ r, room = r + 1 := ⟨room - 1, by omega⟩
  rw [ends_expr_succ]
  refine hl hts (by omega) hlevel hcall (fun v hv => ?_) (fun v hv => ?_)
  · obtain ⟨w, ws, hw⟩ : ∃ w ws, us ++ [u] = w :: ws := List.exists_cons_of_ne_nil (by simp)
    rw [hw] at hshow hfollow
    rw [current_of_shows hshow hv]
    exact hfollow w rfl
  · exact h (by rw [hv]; exact hus) (by omega) hcall fun t => hbad t

/-! ### In a beginning -/

theorem fails_noRule (hg : p.grammar = .arithmetic)
    (hrule : Grammar.arithmetic.prefixRule? u.kind = none) :
    p.Fails power [] u ⟨.noPrefixRule u.text, u.start⟩ := by
  refine fails_of_beginning fun s room good bad hshow hroom hbad => ?_
  obtain rfl : p.current s = u := hshow.1
  rw [ends_beginning_none hg hrule]
  exact hbad _

theorem fails_badNumber (hg : p.grammar = .arithmetic) (hk : u.kind = .number)
    (hv : Binary64.ofString? u.text = none) :
    p.Fails power [] u ⟨.numberParseError u.text, u.start⟩ := by
  refine fails_of_beginning fun s room good bad hshow hroom hbad => ?_
  obtain rfl : p.current s = u := hshow.1
  rw [ends_beginning_operand hg (.inl hk)]
  simp only [operandOf, hk, hv]
  exact hbad _

theorem fails_ended (hg : p.grammar = .arithmetic) (hblank : p.stream.isBlank = false)
    (hk : u.kind = .eof) : p.Fails power [] u ⟨.incompleteExpression, u.start⟩ := by
  refine fails_of_beginning fun s room good bad hshow hroom hbad => ?_
  obtain rfl : p.current s = u := hshow.1
  rw [ends_beginning_eof hg hk, hblank]
  exact hbad _

theorem fails_signed (hg : p.grammar = .arithmetic) (hk : t.kind = .plus ∨ t.kind = .dash)
    (h : p.Fails .unary ts u fault) : p.Fails power (t :: ts) u fault := by
  refine fails_of_beginning fun s room good bad hshow hroom hbad => ?_
  obtain ⟨rfl, hadv, hts⟩ := read_of_shows hshow (by rcases hk with hk | hk <;> rw [hk] <;> nofun)
  obtain ⟨operator, hop⟩ := Operator.exists_of_sign hk
  rw [ends_beginning_sign hg hk hop]
  exact h hts hroom (by decide) hbad

theorem fails_group (hg : p.grammar = .arithmetic) (hk : t.kind = .openParen)
    (h : p.Fails .default ts u fault) : p.Fails power (t :: ts) u fault := by
  refine fails_of_beginning fun s room good bad hshow hroom hbad => ?_
  obtain ⟨rfl, hadv, hts⟩ := read_of_shows hshow (hk.trans_ne nofun)
  rw [ends_beginning_group hg hk]
  exact h hts hroom (by decide) hbad

theorem fails_openGroup (hg : p.grammar = .arithmetic) (hk : t.kind = .openParen)
    (hd : Derives .comparison ts e) (hend : Grammar.arithmetic.power u.kind ≤ .default)
    (hu : u.kind ≠ .closeParen) :
    p.Fails power (t :: ts) u ⟨.missingClosingParen u.describe, u.start⟩ := by
  refine fails_of_beginning fun s room good bad hshow hroom hbad => ?_
  obtain ⟨rfl, hadv, hts⟩ := read_of_shows hshow (hk.trans_ne nofun)
  rw [ends_beginning_group hg hk]
  refine (hd.reads hg).expr_before hg hd.length_pos hts (Nat.le_of_lt hroom) hend ?_
  rintro v hv rfl
  rw [if_neg hu]
  exact hbad _

/-! ### In a continuation -/

theorem fails_operand (hg : p.grammar = .arithmetic) (hd : Derives level.leftOperand ts e)
    (hk : t.kind ∈ level.operators) (hp : (Level.ofPower power).rank ≤ level.rank)
    (h : p.Fails level.follow us u fault) : p.Fails power (ts ++ t :: us) u fault := by
  obtain ⟨rule, operator, ho⟩ := Level.operates_of_mem hk
  refine fails_of_climb (hd.reads hg) (Nat.le_trans hp level.rank_le_leftOperand) ?_
    fun s room good bad hshow hroom hcall hbad => ?_
  · rintro v hv
    obtain rfl : t = v := Option.some.inj hv
    rw [ho.power]
    exact ho.left
  · obtain ⟨rfl, hadv, hus⟩ := read_of_shows hshow (Token.isProper_of_mem_operators hk).1
    have hlt : power < Grammar.arithmetic.power (p.current s).kind := by
      rw [ho.power]
      exact ho.lt hp
    rw [ends_climb_of_lt hg hlt, ends_continuation_operator hg ho]
    exact h hus hroom ho.follow_lt hbad

theorem fails_notCallable (hg : p.grammar = .arithmetic) (hd : Derives .atom ts f)
    (hname : f.isIdentifier = false) (hk : u.kind = .openParen) :
    p.Fails power ts u ⟨.notCallable f.text, u.start⟩ := by
  rw [← List.append_nil ts]
  refine fails_of_climb (hd.reads hg) (Level.rank_ofPower_le_atom power)
    (fun _ _ => Level.le_follow_atom _) fun s room good bad hshow hroom hcall hbad => ?_
  obtain rfl : p.current s = u := hshow.1
  have hlt : power < Grammar.arithmetic.power (p.current s).kind := by rw [hk]; exact hcall
  rw [ends_climb_of_lt hg hlt, ends_continuation_call hg hk, hname]
  exact hbad _

theorem fails_call (hg : p.grammar = .arithmetic) (hd : Derives .atom ts f)
    (hname : f.isIdentifier = true) (hk : t.kind = .openParen)
    (hopen : ∀ v, (us ++ [u]).head? = some v → v.kind ≠ .closeParen)
    (h : p.FailsArguments us u fault) : p.Fails power (ts ++ t :: us) u fault := by
  refine fails_of_climb (hd.reads hg) (Level.rank_ofPower_le_atom power)
    (fun _ _ => Level.le_follow_atom _) fun s room good bad hshow hroom hcall hbad => ?_
  rw [List.cons_append] at hshow
  obtain ⟨rfl, hadv, hus⟩ := read_of_shows hshow (hk.trans_ne nofun)
  have hfirst : (p.current (p.advanced s)).kind ≠ .closeParen := hus.forall_head hopen
  rw [ends_climb_call hg hname hk hcall, ends_argumentsOrNone, current_noted, if_neg hfirst]
  exact h hus hroom hbad

/-! ### In the arguments of a call -/

theorem failsArguments_delimiter (hu : u.isOneOf [.comma, .closeParen] = true) :
    p.FailsArguments [] u ⟨.malformedArguments u.describe, u.start⟩ := by
  intro s room good bad hshow hroom hbad
  obtain rfl : p.current s = u := hshow.1
  rw [ends_arguments_iff (forward_expr p room .default), if_pos hu]
  exact hbad _

theorem failsArguments_argument (h : p.Fails .default ts u fault)
    (hopen : ∀ v, (ts ++ [u]).head? = some v → ¬ v.isOneOf [.comma, .closeParen] = true) :
    p.FailsArguments ts u fault := by
  intro s room good bad hshow hroom hbad
  have hfirst : ¬ (p.current s).isOneOf [.comma, .closeParen] = true := hshow.forall_head hopen
  rw [ends_arguments_iff (forward_expr p room .default), if_neg hfirst]
  exact h hshow hroom (by decide) hbad

theorem failsArguments_unclosed (hg : p.grammar = .arithmetic) (hd : Derives .comparison ts e)
    (hu : u.kind = .eof) :
    p.FailsArguments ts u ⟨.missingClosingParen u.describe, u.start⟩ := by
  intro s room good bad hshow hroom hbad
  refine ends_arguments_of_reads hg hd hd.length_pos (hd.reads hg) hshow (Nat.le_of_lt hroom)
    (by rw [hu]; decide) fun t ht _ => ?_
  rw [hu]
  exact hbad t

theorem failsArguments_malformed (hg : p.grammar = .arithmetic) (hd : Derives .comparison ts e)
    (hend : Grammar.arithmetic.power u.kind ≤ .default)
    (hu : u.kind ≠ .comma ∧ u.kind ≠ .closeParen ∧ u.kind ≠ .eof) :
    p.FailsArguments ts u ⟨.malformedArguments u.describe, u.start⟩ := by
  intro s room good bad hshow hroom hbad
  refine ends_arguments_of_reads hg hd hd.length_pos (hd.reads hg) hshow (Nat.le_of_lt hroom) hend
    fun t ht _ => ?_
  obtain ⟨hcomma, hclose, heof⟩ := hu
  split
  · exact absurd ‹_› hcomma
  · exact absurd ‹_› hclose
  · exact absurd ‹_› heof
  · exact hbad t

theorem failsArguments_cons (hg : p.grammar = .arithmetic) (hd : Derives .comparison ts e)
    (hk : t.kind = .comma) (h : p.FailsArguments us u fault) :
    p.FailsArguments (ts ++ t :: us) u fault := by
  intro s room good bad hshow hroom hbad
  rw [List.append_assoc, List.cons_append] at hshow
  simp only [List.length_append, List.length_cons] at hroom
  refine ends_arguments_of_reads hg hd hd.length_pos (hd.reads hg) hshow (by omega)
    (by rw [hk]; decide) ?_
  rintro v hv rfl
  rw [hk]
  obtain ⟨hadv, -⟩ := advanced_of_kind_ne (hk.trans_ne nofun)
  obtain ⟨-, -, hus⟩ := Stream.shows_append.mp hshow
  exact h (by rw [hadv, hv]; exact hus) (by omega) hbad

end Parser

mutual

/-- The parser fails where an expression is stuck, and says what is wrong there. -/
theorem Stuck.fails {p : Parser} (hg : p.grammar = .arithmetic)
    (hblank : p.stream.isBlank = false) :
    ∀ {power ts u fault}, Stuck power ts u fault → p.Fails power ts u fault
  | _, _, _, _, .noRule h => Parser.fails_noRule hg h
  | _, _, _, _, .badNumber hk hv => Parser.fails_badNumber hg hk hv
  | _, _, _, _, .ended hk => Parser.fails_ended hg hblank hk
  | _, _, _, _, .signed hk h => Parser.fails_signed hg hk (h.fails hg hblank)
  | _, _, _, _, .group hk h => Parser.fails_group hg hk (h.fails hg hblank)
  | _, _, _, _, .openGroup hk he hend hu => Parser.fails_openGroup hg hk he hend hu
  | _, _, _, _, .operand hl hk hp h => Parser.fails_operand hg hl hk hp (h.fails hg hblank)
  | _, _, _, _, .notCallable hf hname hk => Parser.fails_notCallable hg hf hname hk
  | _, _, _, _, .call hf hname hk hopen h =>
      Parser.fails_call hg hf hname hk hopen (h.fails hg hblank)

theorem StuckArguments.fails {p : Parser} (hg : p.grammar = .arithmetic)
    (hblank : p.stream.isBlank = false) :
    ∀ {ts u fault}, StuckArguments ts u fault → p.FailsArguments ts u fault
  | _, _, _, .delimiter h => Parser.failsArguments_delimiter h
  | _, _, _, .argument hopen h => Parser.failsArguments_argument (h.fails hg hblank) hopen
  | _, _, _, .unclosed he hu => Parser.failsArguments_unclosed hg he hu
  | _, _, _, .malformed he hend hu => Parser.failsArguments_malformed hg he hend hu
  | _, _, _, .cons he hk h => Parser.failsArguments_cons hg he hk (h.fails hg hblank)

end

end Precedence

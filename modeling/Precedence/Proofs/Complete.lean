import Precedence.Proofs.Arithmetic
import Precedence.Proofs.Nesting

/-!
# Every derivation is read

Where a stream shows the tokens of a derivation, and the token behind them does not bind too
tightly, the parser reads them and makes the tree of the derivation (`Reads`, `Derives.reads`). It
does so at every power that lets the level in, and wherever the expression read so far may still be
continued: what is said is that a beginning of the whole comes down to going on from the tree. So
the left operand of an operator, which the parser has read before it knows of the operator, is
covered by the same statement as a whole expression.

The room it takes is the depth to which the derivation nests, so as many levels as tokens are always
enough.
-/

namespace Precedence

namespace Parser

/-- With room for so many levels the parser reads the tokens as the tree, at every power that lets
the level in and before every token that may follow the level. -/
def Reads (p : Parser) (depth : Nat) (level : Level) (ts : List Token) (e : Expr) : Prop :=
  ∀ ⦃s : Progress⦄ ⦃power : Power⦄ ⦃room : Nat⦄ ⦃good : Expr → Progress → Prop⦄
    ⦃bad : Fault → Progress → Prop⦄,
    p.stream.Shows s.cursor ts → depth ≤ room + 1 →
    (Level.ofPower power).rank ≤ level.rank → power < .call →
    (∀ t, t.cursor = s.cursor + ts.length →
      Grammar.arithmetic.power (p.current t).kind ≤ level.follow) →
    (∀ t, t.cursor = s.cursor + ts.length → Ends (p.climb (p.expr room) power e) t good bad) →
    Ends (p.phrase room power) s good bad

/-- With room for so many levels the parser reads the tokens as arguments, up to a closing
parenthesis. -/
def ReadsArguments (p : Parser) (depth : Nat) (ts : List Token) (es : List Expr) : Prop :=
  ∀ ⦃s : Progress⦄ ⦃room : Nat⦄ ⦃u : Token⦄ ⦃good : List Expr → Progress → Prop⦄
    ⦃bad : Fault → Progress → Prop⦄,
    p.stream.Shows s.cursor (ts ++ [u]) → depth ≤ room → u.kind = .closeParen →
    (∀ t, t.cursor = s.cursor + ts.length → p.current t = u → good es t) →
    Ends (p.arguments (p.expr room .default)) s good bad

variable {p : Parser} {s : Progress} {power : Power} {room depth : Nat} {level : Level}
  {ts us : List Token} {t u : Token} {e : Expr} {good : Expr → Progress → Prop}
  {bad : Fault → Progress → Prop}

/-- What is read at its level is read as a whole expression before a token that ends it. -/
theorem Reads.expr (hg : p.grammar = .arithmetic) (h : p.Reads depth level ts e) (hpos : 0 < depth)
    (hshow : p.stream.Shows s.cursor ts) (hroom : depth ≤ room)
    (hlevel : (Level.ofPower power).rank ≤ level.rank) (hcall : power < .call)
    (hnext : ∀ t, t.cursor = s.cursor + ts.length →
      Grammar.arithmetic.power (p.current t).kind ≤ power)
    (hgood : ∀ t, t.cursor = s.cursor + ts.length → good e t) :
    Ends (p.expr room power) s good bad := by
  obtain ⟨r, rfl⟩ : ∃ r, room = r + 1 := ⟨room - 1, by omega⟩
  rw [ends_expr_succ]
  refine h hshow hroom hlevel hcall ?_ ?_
  · exact fun t ht => Level.le_follow hlevel hcall (hnext t ht)
  · intro t ht
    rw [ends_climb_of_le hg (hnext t ht)]
    exact hgood _ ht

/-- A whole expression is read up to a token that binds nothing. -/
theorem Reads.expr_before (hg : p.grammar = .arithmetic) (h : p.Reads depth .comparison ts e)
    (hpos : 0 < depth) (hshow : p.stream.Shows s.cursor (ts ++ u :: us))
    (hroom : depth ≤ room) (hu : Grammar.arithmetic.power u.kind ≤ .default)
    (hgood : ∀ t, t.cursor = s.cursor + ts.length → p.current t = u → good e t) :
    Ends (p.expr room .default) s good bad := by
  obtain ⟨hts, -⟩ := Stream.shows_append.mp hshow
  refine h.expr hg hpos hts hroom (Nat.le_refl _) (by decide) ?_ ?_
  · intro t ht
    rw [current_of_shows hshow ht]
    exact hu
  · exact fun t ht => hgood t ht (current_of_shows hshow ht)

/-! ## One production at a time -/

theorem Reads.loosen {next : Level} (hnext : level.tighter? = some next)
    (h : p.Reads depth next ts e) : p.Reads depth level ts e := by
  intro s power room good bad hshow hroom hlevel hcall hfollow hgo
  have hrank : level.rank < next.rank ∧ level.follow ≤ next.follow := by
    revert hnext
    cases level <;> cases next <;> decide
  refine h hshow hroom (by omega) hcall ?_ hgo
  exact fun t ht => Nat.le_trans (hfollow t ht) hrank.2

theorem reads_operand (hg : p.grammar = .arithmetic)
    (hk : t.kind = .number ∨ t.kind = .identifier) (hoperand : operandOf t = .ok e) :
    p.Reads (depth + 1) .atom [t] e := by
  intro s power room good bad hshow hroom hlevel hcall hfollow hgo
  obtain ⟨rfl, hadv, -⟩ := read_of_shows hshow (by rcases hk with hk | hk <;> rw [hk] <;> nofun)
  rw [ends_phrase, ends_beginning_operand hg hk, hoperand]
  exact hgo _ hadv

theorem reads_signed (hg : p.grammar = .arithmetic) (hk : t.kind = .plus ∨ t.kind = .dash)
    {operator : Operator} (hop : Operator.ofKind? t.kind = some operator) (hpos : 0 < depth)
    (he : p.Reads depth .sign ts e) :
    p.Reads (depth + 1) .sign (t :: ts) (.unary operator e t.start) := by
  intro s power room good bad hshow hroom hlevel hcall hfollow hgo
  obtain ⟨rfl, hadv, hts⟩ := read_of_shows hshow (by rcases hk with hk | hk <;> rw [hk] <;> nofun)
  rw [List.length_cons] at hfollow hgo
  rw [ends_phrase, ends_beginning_sign hg hk hop]
  refine he.expr hg hpos hts (by omega) (by decide) (by decide) ?_ ?_
  · exact fun v hv => hfollow v (by rw [hv, cursor_noted]; omega)
  · exact fun v hv => hgo v (by rw [hv, cursor_noted]; omega)

theorem reads_group (hg : p.grammar = .arithmetic) (hk : t.kind = .openParen)
    (hpos : 0 < depth) (he : p.Reads depth .comparison ts e) (hu : u.kind = .closeParen) :
    p.Reads (depth + 1) .atom (t :: (ts ++ [u])) e := by
  intro s power room good bad hshow hroom hlevel hcall hfollow hgo
  obtain ⟨rfl, hadv, hts⟩ := read_of_shows hshow (hk.trans_ne nofun)
  simp only [List.length_cons, List.length_append, List.length_nil] at hgo
  rw [ends_phrase, ends_beginning_group hg hk]
  refine he.expr_before hg hpos hts (by omega) (by rw [hu]; decide) ?_
  rintro v hv rfl
  rw [if_pos hu]
  obtain ⟨hadv', -⟩ := advanced_of_kind_ne (hu.trans_ne nofun)
  exact hgo _ (by rw [hadv', hv, cursor_noted]; omega)

theorem reads_operation (hg : p.grammar = .arithmetic) (hk : t.kind ∈ level.operators)
    {operator : Operator} (hop : Operator.ofKind? t.kind = some operator) {left right : Expr}
    (hpos : 0 < depth) (hl : p.Reads (depth + 1) level.leftOperand ts left)
    (hr : p.Reads depth level.rightOperand us right) :
    p.Reads (depth + 1) level (ts ++ t :: us) (level.node operator left right t.start) := by
  intro s power room good bad hshow hroom hlevel hcall hfollow hgo
  obtain ⟨rule, operator', ho⟩ := Level.operates_of_mem hk
  obtain rfl : operator' = operator := Option.some.inj (ho.ofKind?.symm.trans hop)
  obtain ⟨hts, hus⟩ := Stream.shows_append.mp hshow
  simp only [List.length_cons, List.length_append] at hfollow hgo
  have hleft := level.rank_le_leftOperand
  refine hl hts hroom (by omega) hcall ?_ ?_
  · intro v hv
    rw [current_of_shows hshow hv, ho.power]
    exact ho.left
  · intro v hv
    rw [← hv] at hus
    obtain ⟨rfl, hadv, hus⟩ := read_of_shows hus (Token.isProper_of_mem_operators hk).1
    have hlt : power < Grammar.arithmetic.power (p.current v).kind := by
      rw [ho.power]
      exact ho.lt hlevel
    rw [ends_climb_of_lt hg hlt, ends_continuation_operator hg ho]
    refine hr.expr hg hpos hus (by omega) (Nat.le_of_eq (by rw [ho.right])) ho.follow_lt ?_ ?_
    · exact fun w hw => hfollow w (by rw [hw, cursor_noted]; omega)
    · exact fun w hw => hgo w (by rw [hw, cursor_noted]; omega)

/-! ## Calls -/

/-- Behind a name, an opening parenthesis goes on with a call, at every power. -/
theorem ends_climb_call (hg : p.grammar = .arithmetic) {f : Expr} (hname : f.isIdentifier = true)
    (hk : (p.current s).kind = .openParen) (hcall : power < .call) :
    Ends (p.climb (p.expr room) power f) s good bad ↔
      Ends (p.argumentsOrNone (p.expr room .default))
        (noted (.continues (p.current s) power) (p.advanced s)) (fun es v =>
          if (p.current v).kind = .closeParen then
            Ends (p.climb (p.expr room) power (.call f es (p.current s).start)) (p.advanced v)
              good bad
          else bad (p.unclosed v) v) bad := by
  have hlt : power < Grammar.arithmetic.power (p.current s).kind := by rw [hk]; exact hcall
  rw [ends_climb_of_lt hg hlt, ends_continuation_call hg hk, if_pos hname]

theorem reads_emptyCall (hg : p.grammar = .arithmetic) {f : Expr} (hname : f.isIdentifier = true)
    (hk : t.kind = .openParen) (hf : p.Reads depth .atom ts f) (hu : u.kind = .closeParen) :
    p.Reads depth .atom (ts ++ [t, u]) (.call f [] t.start) := by
  intro s power room good bad hshow hroom hlevel hcall hfollow hgo
  obtain ⟨hts, htu⟩ := Stream.shows_append.mp hshow
  simp only [List.length_cons, List.length_append, List.length_nil] at hgo
  refine hf hts hroom hlevel hcall (fun _ _ => Level.le_follow_atom _) fun v hv => ?_
  rw [← hv] at htu
  obtain ⟨rfl, hadv, hclose⟩ := read_of_shows htu (hk.trans_ne nofun)
  obtain ⟨rfl, hadv', -⟩ := read_of_shows hclose (hu.trans_ne nofun)
  rw [ends_climb_call hg hname hk hcall, ends_argumentsOrNone, current_noted, if_pos hu, if_pos hu]
  exact hgo _ (by rw [cursor_advanced_noted, hadv', hadv, hv]; omega)

theorem reads_call (hg : p.grammar = .arithmetic) {f : Expr} {es : List Expr}
    (hname : f.isIdentifier = true) (hk : t.kind = .openParen)
    (hf : p.Reads (depth + 1) .atom ts f) (hus : DerivesArguments us es)
    (hes : p.ReadsArguments depth us es) (hu : u.kind = .closeParen) :
    p.Reads (depth + 1) .atom (ts ++ t :: (us ++ [u])) (.call f es t.start) := by
  intro s power room good bad hshow hroom hlevel hcall hfollow hgo
  obtain ⟨hts, htu⟩ := Stream.shows_append.mp hshow
  simp only [List.length_cons, List.length_append, List.length_nil] at hgo
  refine hf hts hroom hlevel hcall (fun _ _ => Level.le_follow_atom _) fun v hv => ?_
  rw [← hv] at htu
  obtain ⟨rfl, hadv, hrest⟩ := read_of_shows htu (hk.trans_ne nofun)
  have hfirst : (p.current (p.advanced v)).kind ≠ .closeParen := by
    obtain ⟨w, ws, rfl, hw⟩ := hus.begins
    obtain rfl : p.current (p.advanced v) = w := hrest.1
    intro h
    exact hw (by rw [h]; rfl)
  rw [ends_climb_call hg hname hk hcall, ends_argumentsOrNone, current_noted, if_neg hfirst]
  refine hes hrest (by omega) hu fun w hw hcur => ?_
  rw [hcur, if_pos hu]
  obtain ⟨hadv', -⟩ := advanced_of_kind_ne (p := p) (s := w) (by rw [hcur]; exact hu.trans_ne nofun)
  exact hgo _ (by rw [hadv', hw, cursor_noted]; omega)

theorem not_delimiter_of_begins (h : Grammar.arithmetic.prefixRule? t.kind ≠ none) :
    ¬ t.isOneOf [.comma, .closeParen] = true := by
  intro hd
  simp only [Token.isOneOf, List.contains_iff_mem, List.mem_cons, List.not_mem_nil, or_false] at hd
  rcases hd with hd | hd <;> rw [hd] at h <;> exact h rfl

/-- Behind an argument the arguments go on as the token there says. -/
theorem ends_arguments_of_reads (hg : p.grammar = .arithmetic) (hd : Derives .comparison ts e)
    (hpos : 0 < depth) (he : p.Reads depth .comparison ts e) {good : List Expr → Progress → Prop}
    (hshow : p.stream.Shows s.cursor (ts ++ u :: us)) (hroom : depth ≤ room)
    (hend : Grammar.arithmetic.power u.kind ≤ .default)
    (h : ∀ t, t.cursor = s.cursor + ts.length → p.current t = u →
      match u.kind with
      | .comma => Ends (p.arguments (p.expr room .default)) (p.advanced t)
          (fun es => good (e :: es)) bad
      | .closeParen => good [e] t
      | .eof => bad ⟨.missingClosingParen u.describe, u.start⟩ t
      | _ => bad ⟨.malformedArguments u.describe, u.start⟩ t) :
    Ends (p.arguments (p.expr room .default)) s good bad := by
  have hfirst : ¬ (p.current s).isOneOf [.comma, .closeParen] = true := by
    obtain ⟨v, vs, rfl, hv⟩ := hd.begins
    obtain rfl : p.current s = v := hshow.1
    exact not_delimiter_of_begins hv
  rw [ends_arguments_iff (forward_expr p room .default), if_neg hfirst]
  refine he.expr_before hg hpos hshow hroom hend ?_
  rintro t ht rfl
  exact h t ht rfl

theorem readsArguments_last (hg : p.grammar = .arithmetic) (hd : Derives .comparison ts e)
    (hpos : 0 < depth) (he : p.Reads depth .comparison ts e) : p.ReadsArguments depth ts [e] := by
  intro s room u good bad hshow hroom hu hgood
  refine ends_arguments_of_reads hg hd hpos he hshow hroom (by rw [hu]; decide) fun t ht hcur => ?_
  rw [hu]
  exact hgood t ht hcur

theorem readsArguments_cons (hg : p.grammar = .arithmetic) {es : List Expr}
    (hd : Derives .comparison ts e) (hpos : 0 < depth) (he : p.Reads depth .comparison ts e)
    (hk : t.kind = .comma) (hes : p.ReadsArguments depth us es) :
    p.ReadsArguments depth (ts ++ t :: us) (e :: es) := by
  intro s room u good bad hshow hroom hu hgood
  rw [List.append_assoc, List.cons_append] at hshow
  simp only [List.length_cons, List.length_append] at hgood
  refine ends_arguments_of_reads hg hd hpos he hshow hroom (by rw [hk]; decide) ?_
  rintro w hw rfl
  rw [hk]
  obtain ⟨hadv, -⟩ := advanced_of_kind_ne (hk.trans_ne nofun)
  obtain ⟨-, -, hus⟩ := Stream.shows_append.mp hshow
  refine hes (by rw [hadv, hw]; exact hus) hroom hu fun x hx => hgood x (by omega)

/-! ## Every derivation -/

end Parser

mutual

theorem ProducesIn.reads {p : Parser} (hg : p.grammar = .arithmetic) :
    ∀ {depth level ts e}, ProducesIn depth level ts e → p.Reads depth level ts e
  | _, _, _, _, .operation hk hop hl hr =>
      Parser.reads_operation hg hk hop hr.depth_pos (hl.reads hg) (hr.reads hg)
  | _, _, _, _, .signed hk hop he => Parser.reads_signed hg hk hop he.depth_pos (he.reads hg)
  | _, _, _, _, .number hk hv =>
      Parser.reads_operand hg (.inl hk) (by simp only [Parser.operandOf, hk, hv])
  | _, _, _, _, .identifier hk =>
      Parser.reads_operand hg (.inr hk) (by simp only [Parser.operandOf, hk])
  | _, _, _, _, .emptyCall hf hname hk hu => Parser.reads_emptyCall hg hname hk (hf.reads hg) hu
  | _, _, _, _, .call hf hname hk hes hu =>
      Parser.reads_call hg hname hk (hf.reads hg) hes.derives (hes.reads hg) hu

theorem DerivesIn.reads {p : Parser} (hg : p.grammar = .arithmetic) :
    ∀ {depth level ts e}, DerivesIn depth level ts e → p.Reads depth level ts e
  | _, _, _, _, .produced he => he.reads hg
  | _, _, _, _, .tighter hnext he => (he.reads hg).loosen hnext
  | _, _, _, _, .group hk he hu => Parser.reads_group hg hk he.depth_pos (he.reads hg) hu

theorem DerivesArgumentsIn.reads {p : Parser} (hg : p.grammar = .arithmetic) :
    ∀ {depth ts es}, DerivesArgumentsIn depth ts es → p.ReadsArguments depth ts es
  | _, _, _, .last he => Parser.readsArguments_last hg he.derives he.depth_pos (he.reads hg)
  | _, _, _, .cons he hk hes =>
      Parser.readsArguments_cons hg he.derives he.depth_pos (he.reads hg) hk (hes.reads hg)

end

/-- As many levels as tokens are room enough. -/
theorem Derives.reads {p : Parser} (hg : p.grammar = .arithmetic) {level : Level}
    {ts : List Token} {e : Expr} (he : Derives level ts e) : p.Reads ts.length level ts e :=
  he.derivesIn.reads hg

end Precedence

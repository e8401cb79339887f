import Precedence.Proofs.Stuck

/-!
# What is read is derived, what fails is stuck

The parser reads nothing but derivations, which nest no deeper than its room, and fails nowhere but
where an expression is stuck, unless it runs out of room (`sound_of_room`). One statement says both,
since the loops need both at once: the expression read so far is one of a level that lets the next
token follow (`Begun`), and a fault behind it is one behind the tokens it has taken.

A parse that runs out of room has opened a level of nesting for each token, so its room was smaller
than what was left of the row.
-/

namespace Precedence

namespace Parser

/-- The parse fails behind some tokens in one of the ways `S` allows, or for want of room. -/
def Halts (p : Parser) (s : Progress) (room : Nat) (S : List Token → Token → Fault → Prop)
    (fault : Fault) : Prop :=
  (fault.cause = .nestingTooDeep p.maxDepth ∧ s.cursor + room ≤ p.stream.body.size) ∨
    ∃ ts u, p.stream.Shows s.cursor (ts ++ [u]) ∧ s.cursor + ts.length ≤ p.stream.body.size ∧
      S ts u fault

variable {p : Parser} {s t v : Progress} {ts us : List Token} {room : Nat} {power : Power}
  {fault : Fault} {S S' : List Token → Token → Fault → Prop}

theorem Halts.at (h : p.Spans s ts t) (hs : S ts (p.current t) fault) : p.Halts s room S fault := by
  refine .inr ⟨ts, p.current t, Stream.shows_concat.mpr ⟨h.shows, ?_⟩, ?_, hs⟩
  · rw [← h.cursor]
    rfl
  · rw [← h.cursor]
    exact h.le

/-- A fault behind some tokens, which opened no more levels than there are of them, is one behind
what stood before them. -/
theorem Halts.after {room' : Nat} (h : p.Spans s ts t) (hroom : s.cursor + room ≤ t.cursor + room')
    (hS : ∀ us u fault, p.stream.Shows t.cursor (us ++ [u]) → S us u fault → S' (ts ++ us) u fault)
    (hf : p.Halts t room' S fault) : p.Halts s room S' fault := by
  rcases hf with ⟨hcause, hle⟩ | ⟨us, u, hus, hle, hstuck⟩
  · exact .inl ⟨hcause, by omega⟩
  · refine .inr ⟨ts ++ us, u, ?_, ?_, hS us u fault hus hstuck⟩
    · rw [List.append_assoc]
      exact Stream.shows_append.mpr ⟨h.shows, h.cursor ▸ hus⟩
    · rw [List.length_append, ← Nat.add_assoc, ← h.cursor]
      exact hle

/-- A fault behind a token that opened a level of nesting. -/
theorem Halts.after_read {w : Token} (h : p.Spans s ts v) (hread : p.Spans v [w] t)
    (hS : ∀ us u fault, p.stream.Shows t.cursor (us ++ [u]) → S us u fault →
      S' (ts ++ w :: us) u fault)
    (hf : p.Halts t room S fault) : p.Halts s (room + 1) S' fault := by
  have hspan := h.append hread
  refine hf.after hspan ?_ fun us u fault hus hstuck => ?_
  · rw [hspan.cursor, List.length_append, List.length_singleton]
    omega
  · rw [List.append_assoc]
    exact hS us u fault hus hstuck

/-- An expression read up to some point with so much room behind its first level, of a level that
the power lets in and that the next token may follow. -/
def Begun (p : Parser) (room : Nat) (power : Power) (s : Progress) (left : Expr) (t : Progress) :
    Prop :=
  ∃ ts level, p.Spans s ts t ∧ DerivesIn (room + 1) level ts left ∧
    (Level.ofPower power).rank ≤ level.rank ∧
    Grammar.arithmetic.power (p.current t).kind ≤ level.follow

/-- What is read with so much room at any power is derived, and what fails is stuck. -/
def Sound (p : Parser) (room : Nat) : Prop :=
  ∀ power s, s.cursor ≤ p.stream.body.size →
    Ends (p.expr room power) s
      (fun e t => ∃ ts, p.Spans s ts t ∧ DerivesIn room (Level.ofPower power) ts e ∧
        Grammar.arithmetic.power (p.current t).kind ≤ power)
      (fun fault _ => p.Halts s room (Stuck power) fault)

/-! ## Beginnings -/

theorem sound_operand (hg : p.grammar = .arithmetic) (hs : s.cursor ≤ p.stream.body.size)
    (hk : (p.current s).kind = .number ∨ (p.current s).kind = .identifier) :
    Ends (p.beginning (p.expr room) power) s (p.Begun room power s)
      (fun fault _ => p.Halts s (room + 1) (Stuck power) fault) := by
  have hne : (p.current s).kind ≠ .eof := by rcases hk with h | h <;> rw [h] <;> nofun
  have hread := Spans.read (.begins (p.current s) power) (cursor_lt_of_kind_ne hne)
  rw [ends_beginning_operand hg hk]
  rcases hk with hk | hk
  · cases hv : Binary64.ofString? (p.current s).text with
    | some value =>
      simp only [operandOf, hk, hv]
      exact ⟨_, .atom, hread, .produced (.number hk hv), Level.rank_ofPower_le_atom _,
        Level.le_follow_atom _⟩
    | none =>
      simp only [operandOf, hk, hv]
      exact .at (.nil hs) (.badNumber hk hv)
  · simp only [operandOf, hk]
    exact ⟨_, .atom, hread, .produced (.identifier hk), Level.rank_ofPower_le_atom _,
      Level.le_follow_atom _⟩

theorem sound_sign (hg : p.grammar = .arithmetic) (h : p.Sound room)
    (hs : s.cursor ≤ p.stream.body.size)
    (hk : (p.current s).kind = .plus ∨ (p.current s).kind = .dash) :
    Ends (p.beginning (p.expr room) power) s (p.Begun room power s)
      (fun fault _ => p.Halts s (room + 1) (Stuck power) fault) := by
  have hne : (p.current s).kind ≠ .eof := by rcases hk with h | h <;> rw [h] <;> nofun
  have hread := Spans.read (.begins (p.current s) power) (cursor_lt_of_kind_ne hne)
  obtain ⟨operator, hop⟩ := Operator.exists_of_sign hk
  rw [ends_beginning_sign hg hk hop]
  refine (h .unary _ hread.le).imp ?_ ?_
  · rintro e t ⟨ts, hspan, he, hnext⟩
    exact ⟨_, .sign, hread.append hspan, .produced (.signed hk hop he),
      Level.rank_ofPower_le_sign _, hnext⟩
  · intro fault t hf
    exact hf.after_read (.nil hs) hread fun us u fault _ hstuck => .signed hk hstuck

theorem sound_group (hg : p.grammar = .arithmetic) (h : p.Sound room)
    (hs : s.cursor ≤ p.stream.body.size)
    (hk : (p.current s).kind = .openParen) :
    Ends (p.beginning (p.expr room) power) s (p.Begun room power s)
      (fun fault _ => p.Halts s (room + 1) (Stuck power) fault) := by
  have hread := Spans.read (.begins (p.current s) power)
    (cursor_lt_of_kind_ne (hk.trans_ne nofun))
  rw [ends_beginning_group hg hk]
  refine (h .default _ hread.le).imp ?_ ?_
  · rintro e t ⟨ts, hspan, he, hnext⟩
    split
    · rename_i hu
      have hclose := Spans.advanced (cursor_lt_of_kind_ne (hu.trans_ne nofun))
      exact ⟨_, .atom, (hread.append hspan).append hclose, .group hk he hu,
        Level.rank_ofPower_le_atom _, Level.le_follow_atom _⟩
    · rename_i hu
      exact .at (hread.append hspan) (.openGroup hk he.derives hnext hu)
  · intro fault t hf
    exact hf.after_read (.nil hs) hread fun us u fault _ hstuck => .group hk hstuck

theorem sound_beginning (hg : p.grammar = .arithmetic) (hblank : p.stream.isBlank = false)
    (h : p.Sound room) (hs : s.cursor ≤ p.stream.body.size) :
    Ends (p.beginning (p.expr room) power) s (p.Begun room power s)
      (fun fault _ => p.Halts s (room + 1) (Stuck power) fault) := by
  rcases Grammar.prefixRule?_arithmetic (p.current s).kind with
    hrule | hk | hk | hk | hk
  · rw [ends_beginning_none hg hrule]
    exact .at (.nil hs) (.noRule hrule)
  · exact sound_operand hg hs hk
  · exact sound_sign hg h hs hk
  · exact sound_group hg h hs hk
  · rw [ends_beginning_eof hg hk, hblank]
    exact .at (.nil hs) (.ended hk)

/-! ## Arguments -/

/-- Arguments read up to some point, all of them with a comma behind: what they make of those that
follow. -/
def ArgumentsBegun (p : Parser) (room : Nat) (s : Progress) (done : List Expr) (t : Progress) :
    Prop :=
  ∃ ts, p.Spans s ts t ∧
    (∀ us es, DerivesArgumentsIn room us es → DerivesArgumentsIn room (ts ++ us) (done ++ es)) ∧
    ∀ us u fault, StuckArguments us u fault → StuckArguments (ts ++ us) u fault

theorem ArgumentsBegun.next {done : List Expr} {e : Expr} (h : p.ArgumentsBegun room s done t)
    (hspan : p.Spans t us v) (he : DerivesIn room .comparison us e)
    (hk : (p.current v).kind = .comma) : p.ArgumentsBegun room s (done ++ [e]) (p.advanced v) := by
  obtain ⟨ts, hts, hderives, hstuck⟩ := h
  have hcomma := Spans.advanced (cursor_lt_of_kind_ne (hk.trans_ne nofun))
  refine ⟨ts ++ (us ++ [p.current v]), hts.append (hspan.append hcomma), ?_, ?_⟩
  · intro ws es hes
    have := hderives _ _ (.cons he hk hes)
    simpa using this
  · intro ws u fault hws
    have := hstuck _ _ _ (.cons he.derives hk hws)
    simpa using this

theorem sound_arguments (h : p.Sound room) (hs : s.cursor ≤ p.stream.body.size) :
    Ends (p.arguments (p.expr room .default)) s
      (fun es t => ∃ ts, p.Spans s ts t ∧ DerivesArgumentsIn room ts es ∧
        (p.current t).kind = .closeParen)
      (fun fault _ => p.Halts s room StuckArguments fault) := by
  have hstart : p.ArgumentsBegun room s [] s := ⟨[], .nil hs, fun _ _ h => h, fun _ _ _ h => h⟩
  refine ends_arguments (forward_expr p room .default) hstart ?_ ?_
  · rintro done t ⟨ts, hts, -, hstuck⟩ hd
    have := hstuck _ _ _ (.delimiter hd)
    rw [List.append_nil] at this
    exact .at hts this
  · intro done t hdone hd
    obtain ⟨ts, hts, hderives, hstuck⟩ := id hdone
    refine (h .default t hts.le).imp ?_ ?_
    · rintro e v ⟨us, hus, he, hnext⟩
      have hhalt : ∀ fault, StuckArguments us (p.current v) fault →
          p.Halts s room StuckArguments fault :=
        fun fault hf => .at (hts.append hus) (hstuck _ _ _ hf)
      split
      · rename_i hk
        exact hdone.next hus he hk
      · rename_i hk
        exact ⟨_, hts.append hus, hderives _ _ (.last he), hk⟩
      · rename_i hk
        exact hhalt _ (.unclosed he.derives hk)
      · rename_i hcomma hclose heof
        exact hhalt _ (.malformed he.derives hnext ⟨hcomma, hclose, heof⟩)
    · intro fault v hf
      refine hf.after hts ?_ ?_
      · have := hts.cursor
        omega
      · intro us u fault hus hf
        refine hstuck _ _ _ (.argument (fun w hw => ?_) hf)
        rw [← hus.head hw]
        exact hd

/-! ## Continuations -/

theorem sound_operator (hg : p.grammar = .arithmetic) (h : p.Sound room) {left : Expr}
    {level : Level} (hleft : p.Begun room power s left t) (hlt : power < level.power)
    (hk : (p.current t).kind ∈ level.operators) :
    Ends (p.continuation (p.expr room) power left) t (p.Begun room power s)
      (fun fault _ => p.Halts s (room + 1) (Stuck power) fault) := by
  obtain ⟨rule, operator, ho⟩ := Level.operates_of_mem hk
  obtain ⟨ts, m, hts, hm, hpower, hfollow⟩ := hleft
  have hrank := Level.rank_ofPower_le hlt
  have hl : DerivesIn (room + 1) level.leftOperand ts left :=
    hm.loosen (Level.leftOperand_le (by rw [← ho.power]; exact hfollow))
  have hread := Spans.read (.continues (p.current t) power)
    (cursor_lt_of_kind_ne (Token.isProper_of_mem_operators hk).1)
  rw [ends_continuation_operator hg ho]
  refine (h level.follow _ hread.le).imp ?_ ?_
  · rintro right v ⟨us, hus, hr, hnext⟩
    rw [ho.right] at hr
    have hspan := hts.append (hread.append hus)
    exact ⟨_, level, hspan, .produced (.operation hk ho.ofKind? hl hr), hrank, hnext⟩
  · intro fault v hf
    exact hf.after_read hts hread fun us u fault _ hstuck => .operand hl.derives hk hrank hstuck

theorem sound_call (hg : p.grammar = .arithmetic) (h : p.Sound room) {left : Expr}
    (hleft : p.Begun room power s left t) (hk : (p.current t).kind = .openParen) :
    Ends (p.continuation (p.expr room) power left) t (p.Begun room power s)
      (fun fault _ => p.Halts s (room + 1) (Stuck power) fault) := by
  obtain ⟨ts, m, hts, hm, hpower, hfollow⟩ := hleft
  obtain rfl : m = .atom := Level.eq_atom_of_call_le (by rw [hk] at hfollow; exact hfollow)
  have hread := Spans.read (.continues (p.current t) power)
    (cursor_lt_of_kind_ne (hk.trans_ne nofun))
  -- A call ends with its parenthesis, and is then complete like any atom.
  have hcall : ∀ us es v, p.Spans (noted (.continues (p.current t) power) (p.advanced t)) us v →
      (p.current v).kind = .closeParen →
      DerivesIn (room + 1) .atom (ts ++ p.current t :: (us ++ [p.current v]))
        (.call left es (p.current t).start) →
      p.Begun room power s (.call left es (p.current t).start) (p.advanced v) := by
    intro us es v hus hv he
    have hclose := Spans.advanced (cursor_lt_of_kind_ne (hv.trans_ne nofun))
    exact ⟨_, .atom, hts.append (hread.append (hus.append hclose)), he,
      Level.rank_ofPower_le_atom _, Level.le_follow_atom _⟩
  rw [ends_continuation_call hg hk]
  split
  · rename_i hname
    rw [ends_argumentsOrNone]
    split
    · rename_i hu
      exact hcall [] [] _ (.nil hread.le) hu (.produced (.emptyCall hm hname hk hu))
    · rename_i hu
      refine (sound_arguments h hread.le).imp ?_ ?_
      · rintro es v ⟨us, hus, hes, hv⟩
        rw [if_pos hv]
        exact hcall us es v hus hv (.produced (.call hm hname hk hes hv))
      · intro fault v hf
        refine hf.after_read hts hread fun us u fault hus hstuck => ?_
        refine .call hm.derives hname hk (fun w hw => ?_) hstuck
        rw [← hus.head hw]
        exact hu
  · rename_i hname
    exact .at hts (.notCallable hm.derives (Bool.not_eq_true _ ▸ hname) hk)

theorem sound_continuation (hg : p.grammar = .arithmetic) (h : p.Sound room) {left : Expr}
    (hleft : p.Begun room power s left t) (hlt : power < p.grammar.power (p.current t).kind) :
    Ends (p.continuation (p.expr room) power left) t (p.Begun room power s)
      (fun fault _ => p.Halts s (room + 1) (Stuck power) fault) := by
  rw [hg] at hlt
  rcases Level.mem_operators_of_lt hlt with hk | ⟨level, hk⟩
  · exact sound_call hg h hleft hk
  · obtain ⟨rule, operator, ho⟩ := Level.operates_of_mem hk
    exact sound_operator hg h hleft (by rw [← ho.power]; exact hlt) hk

/-! ## Expressions -/

theorem sound_phrase (hg : p.grammar = .arithmetic) (hblank : p.stream.isBlank = false)
    (h : p.Sound room) (power : Power) (s : Progress) (hs : s.cursor ≤ p.stream.body.size) :
    Ends (p.phrase room power) s
      (fun e t => ∃ ts, p.Spans s ts t ∧ DerivesIn (room + 1) (Level.ofPower power) ts e ∧
        Grammar.arithmetic.power (p.current t).kind ≤ power)
      (fun fault _ => p.Halts s (room + 1) (Stuck power) fault) := by
  rw [ends_phrase]
  refine (sound_beginning hg hblank h hs).imp ?_ fun fault t hf => hf
  intro left t hleft
  refine ends_climb (forward_expr p room) ?_ (fun left t => sound_continuation hg h) hleft
  rintro e t ⟨ts, level, hts, he, hlevel, -⟩ hlt
  rw [hg, Power.not_lt] at hlt
  exact ⟨ts, hts, he.loosen hlevel, hlt⟩

/-- What is read is derived, and what fails is stuck. -/
theorem sound_of_room (hg : p.grammar = .arithmetic) (hblank : p.stream.isBlank = false)
    (room : Nat) : p.Sound room := by
  induction room with
  | zero =>
    intro power s hs
    exact ends_expr_zero.mpr (.inl ⟨rfl, hs⟩)
  | succ room ih =>
    intro power s hs
    rw [ends_expr_succ]
    have hphrase := sound_phrase hg hblank ih power { s with depth := s.depth + 1 } hs
    refine hphrase.imp ?_ fun fault t hf => hf
    rintro e t ⟨ts, hts, he, hnext⟩
    exact ⟨ts, ⟨hts.shows, hts.cursor, hts.le⟩, he, hnext⟩

/-- The same, without an account of the nesting. -/
theorem sound_expr (hg : p.grammar = .arithmetic) (hblank : p.stream.isBlank = false)
    (room : Nat) (power : Power) (s : Progress) (hs : s.cursor ≤ p.stream.body.size) :
    Ends (p.expr room power) s
      (fun e t => ∃ ts, p.Spans s ts t ∧ Derives (Level.ofPower power) ts e ∧
        Grammar.arithmetic.power (p.current t).kind ≤ power)
      (fun fault _ => p.Halts s room (Stuck power) fault) := by
  refine (sound_of_room hg hblank room power s hs).imp_good ?_
  rintro e t ⟨ts, hts, he, hnext⟩
  exact ⟨ts, hts, he.derives, hnext⟩

end Parser

end Precedence

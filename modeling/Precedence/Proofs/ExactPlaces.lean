import Precedence.Proofs.DividedTokens

/-!
# Places are exact

In a text that is not too long the place of an offset is the number of line feeds before it and the
number of characters since the last one, each counted from one (`Position.Marks`), and no count is
too large for a word. The scanner stands at such a place whenever it stands still
(`Stands.isIn`): at the head of its loop, behind a token, and behind each white character
it passes over there. So every token and every fault is where its lexeme is, and the tokens
come in the order of their places (`exactPlaces_scan`).
-/

namespace Precedence

/-- The place is the one behind the text, counted in lines and in characters of the last line. -/
structure Position.Marks (p : Position) (text : List Char) : Prop where
  line : p.line.toNat = 1 + text.count '\n'
  column : p.column.toNat = 1 + (text.reverse.takeWhile (· ≠ '\n')).length

variable {p q : Position} {c : Char} {text more : List Char} {source : String}

/-! ## Counting -/

/-- One character further the count of line feeds or of columns grows by one, and neither is too
large for a word. -/
theorem marks_after (h : p.Marks text) (hlength : text.length < 2 ^ 32 - 2) :
    (p.after c).Marks (text ++ [c]) := by
  obtain ⟨hline, hcolumn⟩ := h
  by_cases hnl : c = '\n'
  · subst hnl
    have hcount : text.count '\n' ≤ text.length := List.count_le_length
    refine ⟨?_, by simp [Position.after]⟩
    show (p.line + 1).toNat = _
    rw [UInt32.toNat_add, hline, List.count_append, List.count_singleton_self,
      show (1 : UInt32).toNat = 1 from rfl, Nat.mod_eq_of_lt (by omega), Nat.add_assoc]
  · have hafter : p.after c = ⟨p.line, p.column + 1⟩ := if_neg hnl
    have hkept : (text ++ [c]).reverse.takeWhile (· ≠ '\n') =
        c :: text.reverse.takeWhile (· ≠ '\n') := by simp [hnl]
    have hlast : (text.reverse.takeWhile (· ≠ '\n')).length ≤ text.length :=
      Nat.le_trans (List.takeWhile_sublist _).length_le (Nat.le_of_eq List.length_reverse)
    rw [hafter]
    refine ⟨?_, ?_⟩
    · have hnone : [c].count '\n' = 0 := List.count_eq_zero.mpr (by simpa using Ne.symm hnl)
      rw [List.count_append, hnone, Nat.add_zero]
      exact hline
    · show (p.column + 1).toNat = _
      rw [UInt32.toNat_add, hcolumn, hkept, List.length_cons, show (1 : UInt32).toNat = 1 from rfl,
        Nat.mod_eq_of_lt (by omega), Nat.add_assoc]

/-- No count overflows. -/
theorem marks_afterAll (hlength : text.length ≤ 2 ^ 32 - 2) :
    (Position.origin.afterAll text).Marks text := by
  induction text using List.reverseRecOn with
  | nil => exact ⟨rfl, rfl⟩
  | append_singleton text c ih =>
    rw [List.length_append, List.length_singleton] at hlength
    rw [Position.afterAll_append]
    exact marks_after (ih (by omega)) (by omega)

theorem order_eq_lt_iff : p.order q = .lt ↔
    p.line < q.line ∨ p.line = q.line ∧ p.column < q.column := by
  rw [Position.order, Ordering.then_eq_lt, Std.compare_eq_lt, Std.compare_eq_lt,
    Std.compare_eq_iff_eq]

theorem order_self : p.order p = .eq := by
  rw [Position.order, Std.compare_self, Std.compare_self]
  rfl

/-- More text ends at a later place. -/
theorem order_of_marks (hp : p.Marks text) (hq : q.Marks (text ++ more)) (hmore : more ≠ []) :
    p.order q = .lt := by
  have hline := hq.line
  have hcolumn := hq.column
  rw [List.count_append, ← Nat.add_assoc, ← hp.line] at hline
  rw [order_eq_lt_iff, UInt32.lt_iff_toNat_lt, UInt32.lt_iff_toNat_lt, ← UInt32.toNat_inj]
  by_cases hnone : '\n' ∈ more
  · have hpos := List.count_pos_iff.mpr hnone
    left
    omega
  · have hzero : more.count '\n' = 0 := List.count_eq_zero.mpr hnone
    have hall : ∀ d ∈ more.reverse, decide (d ≠ '\n') = true := fun d hd =>
      decide_eq_true fun e => hnone (e ▸ List.mem_reverse.mp hd)
    rw [List.reverse_append, List.takeWhile_append_of_pos hall, List.length_append,
      List.length_reverse] at hcolumn
    have hpos := List.length_pos_iff.mpr hmore
    have hp := hp.column
    exact .inr ⟨by omega, by omega⟩

/-! ## Wherever the scanner stands -/

/-- The scanner is at the head of its loop, with the last token it has found. -/
inductive Arrives (source : String) : Option Token → Cursor → Prop
  | start : Arrives source none (.ofString source)
  | turn {last : Option Token} {c : Cursor} (h : Arrives source last c) (hrest : c.rest ≠ []) :
      Arrives source (lastToken? last (step last c).1) (step last c).2

/-- The scanner has taken a lexeme and passes over the white space behind it. -/
inductive Skips (source : String) : Cursor → Prop
  | lexeme {last : Option Token} {c : Cursor} {pattern : Pattern} {kind : TokenKind}
      (h : Arrives source last c) (hrule : ruleFor? c.rest = some ⟨pattern, .emit kind⟩) :
      Skips source (c.skip (pattern c.rest))
  | space {c : Cursor} (h : Skips source c) (hspace : ∃ ch ∈ c.rest.head?, isSpace ch = true) :
      Skips source c.next

/-- The cursor is one that scanning the text passes through. -/
def Stands (source : String) (c : Cursor) : Prop :=
  (∃ last, Arrives source last c) ∨ Skips source c

/-- Some of the text is read, and the cursor is behind it. -/
def Cursor.IsIn (c : Cursor) (text : List Char) : Prop :=
  ∃ passed, text = passed ++ c.rest ∧ c.position = Position.origin.afterAll passed

section Running

variable {c : Cursor} {last : Option Token} {text : List Char}

theorem isIn_next (h : c.IsIn text) : c.next.IsIn text := by
  obtain ⟨rest, position⟩ := c
  obtain ⟨passed, rfl, rfl⟩ := h
  cases rest with
  | nil => exact ⟨passed, rfl, rfl⟩
  | cons ch rest =>
    refine ⟨passed ++ [ch], by simp [Cursor.next], ?_⟩
    rw [Position.afterAll_append]
    rfl

theorem isIn_skip {pattern : Pattern} {action : Action} (h : c.IsIn text)
    (hrule : ruleFor? c.rest = some ⟨pattern, action⟩) (hn : action ≠ .newline) :
    (c.skip (pattern c.rest)).IsIn text := by
  obtain ⟨rest, position⟩ := c
  obtain ⟨passed, rfl, rfl⟩ := h
  rw [skip_eq hrule hn]
  refine ⟨passed ++ rest.take (pattern rest), ?_, (Position.afterAll_append _ _ _).symm⟩
  rw [List.append_assoc, List.length_take, ← List.drop_eq_drop_min, List.take_append_drop]

theorem isIn_skipSpace (h : c.IsIn text) : c.skipSpace.IsIn text := by
  obtain ⟨passed, rfl, hposition⟩ := h
  refine ⟨passed ++ c.rest.takeWhile isSpace, ?_, ?_⟩
  · rw [List.append_assoc, Cursor.skipSpace, List.takeWhile_append_dropWhile]
  · rw [Cursor.skipSpace, hposition, Position.afterAll_append]

/-- A step moves on within the text. -/
theorem isIn_step (h : c.IsIn text) (last : Option Token) : (step last c).2.IsIn text := by
  unfold step
  split
  · exact h
  · split
    · exact isIn_next h
    · rename_i hrule
      exact isIn_skip h hrule (by simp)
    · rename_i hrule
      exact isIn_skipSpace (isIn_skip h hrule (by simp))
    · exact isIn_next h

theorem Arrives.isIn (h : Arrives source last c) : c.IsIn source.toList := by
  induction h with
  | start => exact ⟨[], rfl, rfl⟩
  | turn _ _ ih => exact isIn_step ih _

/-- What is still to be found is what the loop finds from there. -/
theorem Arrives.exists_scan_eq (h : Arrives source last c) :
    ∃ found, scan source = found ++ emissions last c := by
  induction h with
  | start => exact ⟨[], rfl⟩
  | @turn last c _ hrest ih =>
    obtain ⟨found, hfound⟩ := ih
    exact ⟨found ++ (step last c).1, by rw [hfound, emissions_step hrest, List.append_assoc]⟩

theorem Skips.isIn (h : Skips source c) : c.IsIn source.toList := by
  induction h with
  | lexeme h hrule => exact isIn_skip h.isIn hrule nofun
  | space _ _ ih => exact isIn_next ih

/-- Character by character the scanner gets to where its step goes on. -/
theorem Skips.skipSpace (h : Skips source c) : Skips source c.skipSpace := by
  obtain ⟨rest, position⟩ := c
  induction rest generalizing position with
  | nil => exact h
  | cons ch rest ih =>
    cases hch : isSpace ch with
    | true =>
      have hnext := ih _ (h.space ⟨ch, rfl, hch⟩)
      rwa [Cursor.skipSpace, List.dropWhile_cons_of_pos hch, List.takeWhile_cons_of_pos hch,
        Position.afterAll_cons]
    | false =>
      rwa [Cursor.skipSpace, List.dropWhile_cons_of_neg (by simp [hch]),
        List.takeWhile_cons_of_neg (by simp [hch]), Position.afterAll_nil]

theorem Stands.isIn (h : Stands source c) : c.IsIn source.toList := by
  rcases h with ⟨last, h⟩ | h
  · exact h.isIn
  · exact h.isIn

end Running

/-! ## Places of tokens -/

section Tokens

variable {before : TokenKind} {segments : List Segment} {front back : List Token} {t u : Token}

/-- Every token begins where one of the segments has its gap behind it. -/
theorem start_of_mem_dividedTokens (hu : u ∈ dividedTokens before p segments) :
    ∃ text, text <+: written segments ∧ u.start = p.afterAll text := by
  have hplaces := @forall_place_dividedTokens before p segments
    fun q => ∃ text, text <+: written segments ∧ q = p.afterAll text
  exact (hplaces (fun read hread => ⟨read, hread, rfl⟩) u hu).1

/-- Behind a written token all tokens begin later. -/
theorem order_of_dividedTokens {text : List Char} (h : Divides text segments)
    (hlength : text.length ≤ 2 ^ 32 - 2)
    (heq : dividedTokens .eof .origin segments = front ++ t :: back) (ht : t.kind ≠ .implicitStar)
    (hu : u ∈ back) : t.start.order u.start = .lt := by
  obtain ⟨init, s, rest, rfl, -, rfl, rfl⟩ :=
    exists_segment_of_dividedTokens h.kind_ne_implicitStar heq ht
  obtain ⟨more, hmore, hstart⟩ := start_of_mem_dividedTokens hu
  have hlonger : (written init ++ s.gap) ++ (s.word ++ more) <+: text := by
    rw [h.written_eq, written_append, written_cons, List.append_assoc]
    exact (List.prefix_append_right_inj _).mpr ((List.prefix_append_right_inj _).mpr
      ((List.prefix_append_right_inj _).mpr hmore))
  have hword : s.word ≠ [] := by
    rcases (h.tail_of_append (List.cons_ne_nil s rest)).cons_cases with ⟨rfl, -⟩ | ⟨_, -, hword, -⟩
    · cases hu
    · obtain ⟨c, tail, hcons, -⟩ := hword.exists_cons
      rw [hcons]
      exact List.cons_ne_nil c tail
  have hle := hlonger.length_le
  have hsooner : (written init ++ s.gap).length ≤ 2 ^ 32 - 2 := by
    rw [List.length_append] at hle
    omega
  have hmarks := marks_afterAll hsooner
  have hmarks' := marks_afterAll (Nat.le_trans hle hlength)
  have htokens : (s.token (Position.origin.afterAll (written init))).start =
      Position.origin.afterAll (written init ++ s.gap) := (Position.afterAll_append _ _ _).symm
  rw [htokens, hstart, ← Position.afterAll_append]
  refine order_of_marks hmarks ?_ (List.append_ne_nil_of_left_ne_nil hword more)
  simpa [Segment.text] using hmarks'

end Tokens

/-- All places that scanning the text uses are exact. -/
structure ExactPlaces (source : String) : Prop where
  /-- The scanner knows where it stands. -/
  running : ∀ c, Stands source c →
    ∃ passed, source.toList = passed ++ c.rest ∧ c.position.Marks passed
  /-- A written token begins and ends with its lexeme. -/
  lexemes : ∃ segments, Divides source.toList segments ∧
    ∀ front t back, tokensOf (scan source) = front ++ t :: back → t.kind ≠ .implicitStar →
      ∃ init s rest, segments = init ++ s :: rest ∧
        init.length = (withoutSigns front).length ∧
        (t.kind = s.kind ∧ t.text = .ofList s.word) ∧
        t.span.start.Marks (written init ++ s.gap) ∧
        t.span.stop.Marks (written init ++ (s.gap ++ s.word))
  /-- A sign nobody wrote begins and ends where the token behind it begins. -/
  signs : ∀ front t back, tokensOf (scan source) = front ++ t :: back →
    t.kind = .implicitStar → ∃ u rest, back = u :: rest ∧ u.kind ≠ .implicitStar ∧
      t.span = .point u.start
  /-- The faults stand where the tokens of their characters begin. -/
  faults : (faultsOf (scan source)).map Fault.position =
    ((tokensOf (scan source)).filter (·.kind = .error)).map Token.start
  /-- Tokens begin one after the other, but for a sign and the token right behind it. -/
  increasing : ∀ front t between u back,
    tokensOf (scan source) = front ++ t :: (between ++ u :: back) →
    t.start.order u.start = if t.kind = .implicitStar ∧ between = [] then .eq else .lt

/-- In a text that is not too long every place is exact. -/
theorem exactPlaces_scan (hlength : source.length ≤ 2 ^ 32 - 2) : ExactPlaces source := by
  rw [← String.length_toList] at hlength
  obtain ⟨segments, h⟩ := exists_divides source.toList
  have hkind := h.kind_ne_implicitStar
  have htokens := tokensOf_scan_of_divides h
  have hmarks : ∀ passed, passed <+: source.toList →
      (Position.origin.afterAll passed).Marks passed := fun _ hpassed =>
    marks_afterAll (Nat.le_trans hpassed.length_le hlength)
  refine ⟨?_, ⟨segments, h, ?_⟩, ?_, positions_faultsOf none (.ofString source), ?_⟩
  · intro c hc
    obtain ⟨passed, htext, hposition⟩ := hc.isIn
    exact ⟨passed, htext, hposition ▸ hmarks _ ⟨c.rest, htext.symm⟩⟩
  · intro front t back heq ht
    rw [htokens] at heq
    obtain ⟨init, s, rest, rfl, hlength, rfl, -⟩ := exists_segment_of_dividedTokens hkind heq ht
    have hfills : source.toList =
        written init ++ (s.gap ++ (s.word ++ written rest)) := by
      rw [h.written_eq, written_append, written_cons]
    refine ⟨init, s, rest, rfl, hlength, ⟨rfl, rfl⟩, ?_, ?_⟩
    · have hstart := hmarks (written init ++ s.gap)
        ⟨s.word ++ written rest, by rw [hfills, List.append_assoc]⟩
      rwa [Position.afterAll_append] at hstart
    · have hstop := hmarks (written init ++ (s.gap ++ s.word))
        ⟨written rest, by rw [hfills, List.append_assoc, List.append_assoc]⟩
      rwa [Position.afterAll_append] at hstop
  · intro front t back heq ht
    rw [htokens] at heq
    obtain ⟨u, rest, rfl, hu, rfl⟩ := exists_next_of_dividedTokens hkind heq ht
    exact ⟨u, rest, rfl, hu, rfl⟩
  · intro front t between u back heq
    rw [htokens] at heq
    by_cases ht : t.kind = .implicitStar
    · obtain ⟨v, rest, hback, hv, rfl⟩ := exists_next_of_dividedTokens hkind heq ht
      cases between with
      | nil =>
        obtain ⟨rfl, -⟩ := List.cons.inj hback
        rw [if_pos ⟨rfl, rfl⟩]
        exact order_self
      | cons w between =>
        obtain ⟨rfl, -⟩ := List.cons.inj hback
        rw [if_neg nofun]
        have hsplit : front ++ .implicitStar w.start :: (w :: between ++ u :: back) =
            (front ++ [.implicitStar w.start]) ++ w :: (between ++ u :: back) := by simp
        rw [hsplit] at heq
        show w.start.order u.start = .lt
        exact order_of_dividedTokens h hlength heq hv (by simp)
    · rw [if_neg fun hstar => ht hstar.1]
      exact order_of_dividedTokens h hlength heq ht (by simp)

theorem exactPlaces_twoLines :
    "2x\n(λ) $".length ≤ 2 ^ 32 - 2 ∧ ExactPlaces "2x\n(λ) $" ∧
      (tokensOf (scan "2x\n(λ) $")).map (fun t => (t.kind, t.start.text, t.span.stop.text)) =
        [(.number, "1:1", "1:2"), (.implicitStar, "1:2", "1:2"), (.identifier, "1:2", "1:3"),
          (.openParen, "2:1", "2:2"), (.identifier, "2:2", "2:3"), (.closeParen, "2:3", "2:4"),
          (.error, "2:5", "2:6"), (.eof, "2:6", "2:6")] := by
  have hlength : "2x\n(λ) $".length ≤ 2 ^ 32 - 2 := by decide
  exact ⟨hlength, exactPlaces_scan hlength, by cbv⟩

end Precedence

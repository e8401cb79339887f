import Precedence.Proofs.Accepts

/-!
# Faults are found where they are

A parse that fails points at the first token that no expression could have there (`FaultAt`). The
tokens before it begin a row that is accepted; with the token itself they begin none; and every row
that begins with them fails with the same fault, so what stands behind has no part in it.

All of it follows from what blocks a row (`Blocked`), since that is said by the tokens up to the
offending one.
-/

namespace Precedence

mutual

theorem Stuck.position_eq : ∀ {power ts u fault}, Stuck power ts u fault →
    fault.position = u.start
  | _, _, _, _, .noRule _ | _, _, _, _, .badNumber .. | _, _, _, _, .ended _
  | _, _, _, _, .openGroup .. | _, _, _, _, .notCallable .. => rfl
  | _, _, _, _, .signed _ h | _, _, _, _, .group _ h | _, _, _, _, .operand _ _ _ h
  | _, _, _, _, .call _ _ _ _ h => h.position_eq

theorem StuckArguments.position_eq : ∀ {ts u fault}, StuckArguments ts u fault →
    fault.position = u.start
  | _, _, _, .delimiter _ | _, _, _, .unclosed .. | _, _, _, .malformed .. => rfl
  | _, _, _, .argument _ h | _, _, _, .cons _ _ h => h.position_eq

end

namespace Blocked

variable {ts tokens : List Token} {u : Token} {fault : Fault} {maxDepth : Nat}

theorem position_eq (h : Blocked ts u fault) : fault.position = u.start := by
  cases h with
  | stuck h => exact h.position_eq
  | unused => rfl

theorem exists_derives (h : Blocked ts u fault) :
    ∃ rest e, Derives .comparison (ts ++ rest) e := by
  cases h with
  | stuck h => exact h.exists_derives
  | @unused e he => exact ⟨[], e, by rw [List.append_nil]; exact he⟩

/-- Every row that is blocked by a proper token fails with the same fault. -/
theorem parseTokens_eq (h : Blocked ts u fault) (hrow : ts ++ [u] <+: tokens)
    (hu : u.kind ≠ .eof) (herror : ∀ t ∈ tokens, t.kind ≠ .error) (hdepth : ts.length < maxDepth) :
    parseTokens .arithmetic maxDepth tokens = .error fault := by
  have hrow' := hrow.trans (Stream.prefix_tokens_ofList tokens)
  rw [parseTokens, runTokens_eq_run herror]
  exact Parser.run_eq_error (Parser.ends_whole_of_blocked rfl (Stream.isBlank_eq_false hrow' hu) h
    hrow' hdepth)

/-- A parser does not accept a row that is blocked, however deep expressions may nest. -/
theorem run_ne_ok {p : Parser} (hg : p.grammar = .arithmetic) (h : Blocked ts u fault)
    (hrow : ts ++ [u] <+: p.stream.tokens) (hu : u.kind ≠ .eof) (e : Expr) :
    p.run.result ≠ .ok e := by
  intro hok
  have hblank := Stream.isBlank_eq_false hrow hu
  obtain ⟨t, -, hend⟩ := Parser.run_of_ends (Parser.sound_whole hg hblank)
  rw [hok] at hend
  obtain ⟨us, hus, he, hlast⟩ := hend
  -- With room enough, the same row would be accepted for what was read of it and refused.
  let wide : Parser := { p with maxDepth := ts.length + us.length + 1 }
  have haccepted : wide.run.result = .ok e :=
    Parser.run_eq_ok (Parser.ends_whole_of_derives hg he.derives hus.prefix_tokens hlast
      (by simp only [wide]; omega))
  have hrefused : wide.run.result = .error fault :=
    Parser.run_eq_error (Parser.ends_whole_of_blocked hg hblank h hrow
      (by simp only [wide]; omega))
  rw [haccepted] at hrefused
  cases hrefused

theorem parseTokens_ne_ok (h : Blocked ts u fault) (hrow : ts ++ [u] <+: tokens)
    (hu : u.kind ≠ .eof) (e : Expr) : parseTokens .arithmetic maxDepth tokens ≠ .ok e := by
  intro hok
  have herror := kind_ne_error_of_ok hok
  rw [parseTokens, runTokens_eq_run herror] at hok
  exact h.run_ne_ok rfl (hrow.trans (Stream.prefix_tokens_ofList tokens)) hu e hok

end Blocked

/-- A parse fails where its row is blocked, or for want of room. -/
theorem blocked_or_deep_of_run_error {p : Parser} {fault : Fault} (hg : p.grammar = .arithmetic)
    (h : p.run.result = .error fault) :
    (fault.cause = .nestingTooDeep p.maxDepth ∧ p.maxDepth ≤ p.stream.body.size) ∨
      ∃ ts u, ts ++ [u] <+: p.stream.tokens ∧ Blocked ts u fault := by
  cases hblank : p.stream.isBlank with
  | true =>
    rcases Nat.eq_zero_or_pos p.maxDepth with hzero | hpos
    · have hends : Parser.Ends p.whole .start (fun _ _ => False)
          fun fault _ => fault.cause = .nestingTooDeep p.maxDepth := by
        rw [Parser.ends_whole, hzero, Parser.ends_expr_zero, hzero]
      obtain ⟨t, -, hend⟩ := Parser.run_of_ends hends
      rw [h] at hend
      exact .inl ⟨hend, hzero ▸ Nat.zero_le _⟩
    · rw [Parser.run_eq_ok (Parser.ends_whole_of_blank hg hblank hpos)] at h
      cases h
  | false =>
    obtain ⟨t, -, hend⟩ := Parser.run_of_ends (Parser.sound_whole hg hblank)
    rw [h] at hend
    rcases hend with ⟨hcause, hle⟩ | ⟨ts, u, hshow, hle, hb⟩
    · exact .inl ⟨hcause, by rwa [show Progress.start.cursor = 0 from rfl, Nat.zero_add] at hle⟩
    · rw [show Progress.start.cursor = 0 from rfl] at hshow hle
      refine .inr ⟨ts, u, (Stream.shows_iff_isPrefix ?_).mp hshow, hb⟩
      rw [List.length_append, List.length_singleton]
      omega

/-- A parse with room enough fails only where its row is blocked. -/
theorem exists_blocked_of_run_error {p : Parser} {fault : Fault} (hg : p.grammar = .arithmetic)
    (hdepth : p.stream.body.size < p.maxDepth) (h : p.run.result = .error fault) :
    ∃ ts u, ts ++ [u] <+: p.stream.tokens ∧ Blocked ts u fault :=
  (blocked_or_deep_of_run_error hg h).resolve_left fun hdeep => by omega

section Rows

/-- The fault of a row is that of its token at the index, which is the closing one at the end. -/
structure FaultAt (ts : List Token) (last : Token) (fault : Fault) (i : Nat) : Prop where
  le : i ≤ ts.length
  position : ∃ u, (ts ++ [last])[i]? = some u ∧ fault.position = u.start
  /-- The tokens before it begin a row that is accepted. -/
  completable : ∃ row, ts.take i <+: row ∧ (∀ t ∈ row, t.IsProper) ∧
    ∃ e, ∀ limit, row.length + 1 ≤ limit →
      parseTokens .arithmetic limit (row ++ [last]) = .ok e
  /-- With the token itself they begin none. -/
  refused : i < ts.length → ∀ tokens limit e, ts.take (i + 1) <+: tokens →
    parseTokens .arithmetic limit tokens ≠ .ok e
  /-- Whatever else begins with them fails in the same way. -/
  same : i < ts.length → ∀ tokens limit, ts.take (i + 1) <+: tokens →
    (∀ t ∈ tokens, t.kind ≠ .error) → i < limit →
    parseTokens .arithmetic limit tokens = .error fault

variable {ts : List Token} {last : Token} {maxDepth : Nat} {fault : Fault}

/-- A parse that fails points at the first token that no expression goes on with. -/
theorem parseTokens_error_faultAt (hts : ∀ t ∈ ts, t.IsProper) (hlast : last.kind = .eof)
    (hdepth : ts.length + 1 ≤ maxDepth)
    (h : parseTokens .arithmetic maxDepth (ts ++ [last]) = .error fault) :
    ∃ i, FaultAt ts last fault i := by
  rw [parseTokens_concat hts hlast] at h
  obtain ⟨us, u, hrow, hb⟩ := exists_blocked_of_run_error
    (p := ⟨.arithmetic, ⟨ts.toArray, last, hlast⟩, maxDepth⟩) rfl hdepth h
  obtain ⟨behind, hbehind⟩ : us ++ [u] <+: ts ++ [last] := hrow
  have hlength : us.length ≤ ts.length := by
    have := congrArg List.length hbehind
    simp only [List.length_append, List.length_singleton] at this
    omega
  have htake : ∀ i, i ≤ ts.length → ts.take i = (us ++ [u] ++ behind).take i := by
    intro i hi
    rw [hbehind, List.take_append_of_le_length hi]
  have hfirst : us.length < ts.length → ts.take (us.length + 1) = us ++ [u] := by
    intro hi
    rw [htake _ hi]
    exact List.take_left' (by simp)
  have hu : us.length < ts.length → u.kind ≠ .eof := by
    intro hi
    have hmem : u ∈ ts.take (us.length + 1) := by rw [hfirst hi]; simp
    exact (hts u (List.mem_of_mem_take hmem)).1
  refine ⟨us.length, ⟨hlength, ⟨u, ?_, hb.position_eq⟩, ?_, ?_, ?_⟩⟩
  · rw [← hbehind]
    simp
  · obtain ⟨rest, e, he⟩ := hb.exists_derives
    refine ⟨us ++ rest, ?_, he.isProper, e, fun limit hlimit => ?_⟩
    · rw [htake _ hlength]
      simp
    · exact he.parseTokens_eq hlast (Nat.le_of_succ_le hlimit)
  · intro hi tokens limit e hprefix
    rw [hfirst hi] at hprefix
    exact hb.parseTokens_ne_ok hprefix (hu hi) e
  · intro hi tokens limit hprefix herror hlimit
    rw [hfirst hi] at hprefix
    exact hb.parseTokens_eq hprefix (hu hi) herror hlimit

/-- The tokens of `g(a + (b, c`. -/
def openGroup : List Token :=
  [.inLine .identifier "g" 1, .inLine .openParen "(" 2, .inLine .identifier "a" 3,
    .inLine .plus "+" 5, .inLine .openParen "(" 7, .inLine .identifier "b" 8,
    .inLine .comma "," 9, .inLine .identifier "c" 11]

/-- The group is not closed before the comma, whatever comes. -/
theorem faultAt_openGroup :
    parseTokens .arithmetic 9 (openGroup ++ [.inLine .eof "" 12]) =
        .error ⟨.missingClosingParen ",", ⟨1, 9⟩⟩ ∧
      ∃ i, FaultAt openGroup (.inLine .eof "" 12) ⟨.missingClosingParen ",", ⟨1, 9⟩⟩ i := by
  have h : parseTokens .arithmetic 9 (openGroup ++ [.inLine .eof "" 12]) =
      .error ⟨.missingClosingParen ",", ⟨1, 9⟩⟩ := by cbv
  exact ⟨h, parseTokens_error_faultAt (by decide) rfl (by decide) h⟩

end Rows

end Precedence

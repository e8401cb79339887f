import Precedence.Proofs.Sound
import Precedence.Proofs.Whole

/-!
# What is accepted

A parse of a whole row of tokens has the expression the grammar derives from the row, and no other
way to succeed (`Parser.run_eq_ok_iff`). It fails where an expression is stuck, or behind an
expression that leaves tokens over, and nowhere else (`Blocked`).

The tokens are arbitrary, but for those that stand for nothing in a text: no token before the
closing one marks the end, and none holds a stray character. The nesting allowed is as deep as the
row is long, which is more than any row needs.
-/

namespace Precedence

/-- A row that begins with these tokens is no expression, and this is what is wrong with it. -/
inductive Blocked (ts : List Token) (u : Token) : Fault → Prop
  | stuck {fault} (h : Stuck .default ts u fault) : Blocked ts u fault
  | unused {e} (he : Derives .comparison ts e)
      (hend : Grammar.arithmetic.power u.kind ≤ .default) (hu : u.kind ≠ .eof) :
      Blocked ts u ⟨.unusedTokens u.text, u.start⟩

namespace Parser

variable {p : Parser} {t : Progress} {ts : List Token} {u : Token} {e : Expr} {fault : Fault}

/-- A whole parse ends behind a derivation, or is blocked, or lacks room. -/
theorem sound_whole (hg : p.grammar = .arithmetic) (hblank : p.stream.isBlank = false) :
    Ends p.whole .start
      (fun e t => ∃ ts, p.Spans .start ts t ∧ DerivesIn p.maxDepth .comparison ts e ∧
        (p.current t).kind = .eof)
      (fun fault _ => p.Halts .start p.maxDepth Blocked fault) := by
  rw [ends_whole]
  refine (sound_of_room hg hblank p.maxDepth .default .start (Nat.zero_le _)).imp ?_ ?_
  · rintro e t ⟨ts, hts, he, hnext⟩
    split
    · rename_i hend
      exact ⟨ts, hts, he, hend⟩
    · rename_i hend
      exact .at hts (.unused he.derives hnext hend)
  · intro fault t hf
    exact hf.after (.nil (Nat.zero_le _)) (Nat.le_refl _) fun us u fault _ h => .stuck h

/-- Without a token before the closing one, the expression is the empty one. -/
theorem ends_whole_of_blank (hg : p.grammar = .arithmetic) (hblank : p.stream.isBlank = true)
    (hdepth : 0 < p.maxDepth) :
    Ends p.whole .start (fun e _ => e = .empty) fun _ _ => False := by
  have hsize : p.stream.body.size = 0 := by simpa [Stream.isBlank] using hblank
  have heof : ∀ s, (p.current s).kind = .eof :=
    fun s => Stream.kind_token_of_size_le (by rw [hsize]; exact Nat.zero_le _)
  obtain ⟨room, hroom⟩ : ∃ room, p.maxDepth = room + 1 := ⟨p.maxDepth - 1, by omega⟩
  rw [ends_whole, hroom, ends_expr_succ, ends_phrase, ends_beginning_eof hg (heof _), if_pos hblank,
    ends_climb_of_le hg (by rw [heof]; decide), if_pos (heof _)]

/-- A derivation at the start of a row is read, up to a token that ends it. -/
theorem ends_expr_of_derivesIn (hg : p.grammar = .arithmetic)
    (he : DerivesIn p.maxDepth .comparison ts e) (hrow : ts ++ [u] <+: p.stream.tokens)
    (hu : Grammar.arithmetic.power u.kind ≤ .default) :
    Ends (p.expr p.maxDepth .default) .start
      (fun e' t => e' = e ∧ t.cursor = ts.length ∧ p.current t = u) fun _ _ => False := by
  refine (he.reads hg).expr_before hg he.depth_pos (Stream.shows_of_isPrefix hrow)
    (Nat.le_refl _) hu ?_
  exact fun t ht hcur => ⟨rfl, by rw [ht]; exact Nat.zero_add _, hcur⟩

theorem ends_expr_of_derives (hg : p.grammar = .arithmetic) (he : Derives .comparison ts e)
    (hrow : ts ++ [u] <+: p.stream.tokens) (hu : Grammar.arithmetic.power u.kind ≤ .default)
    (hdepth : ts.length ≤ p.maxDepth) :
    Ends (p.expr p.maxDepth .default) .start
      (fun e' t => e' = e ∧ t.cursor = ts.length ∧ p.current t = u) fun _ _ => False :=
  ends_expr_of_derivesIn hg (he.derivesIn.mono hdepth) hrow hu

theorem ends_whole_of_derivesIn (hg : p.grammar = .arithmetic)
    (he : DerivesIn p.maxDepth .comparison ts e) (hrow : ts ++ [u] <+: p.stream.tokens)
    (hu : u.kind = .eof) : Ends p.whole .start (fun e' _ => e' = e) fun _ _ => False := by
  rw [ends_whole]
  refine (ends_expr_of_derivesIn hg he hrow (by rw [hu]; decide)).imp ?_ fun _ _ h => h
  rintro e' t ⟨rfl, -, hcur⟩
  rw [hcur, if_pos hu]

theorem ends_whole_of_derives (hg : p.grammar = .arithmetic) (he : Derives .comparison ts e)
    (hrow : ts ++ [u] <+: p.stream.tokens) (hu : u.kind = .eof) (hdepth : ts.length ≤ p.maxDepth) :
    Ends p.whole .start (fun e' _ => e' = e) fun _ _ => False :=
  ends_whole_of_derivesIn hg (he.derivesIn.mono hdepth) hrow hu

theorem ends_whole_of_blocked (hg : p.grammar = .arithmetic) (hblank : p.stream.isBlank = false)
    (hb : Blocked ts u fault) (hrow : ts ++ [u] <+: p.stream.tokens)
    (hdepth : ts.length < p.maxDepth) :
    Ends p.whole .start (fun _ _ => False) fun fault' _ => fault' = fault := by
  rw [ends_whole]
  cases hb with
  | stuck h =>
    exact h.fails hg hblank (Stream.shows_of_isPrefix hrow) hdepth (by decide) fun _ => rfl
  | unused he hend hu =>
    refine (ends_expr_of_derives hg he hrow hend (Nat.le_of_lt hdepth)).imp ?_ fun _ _ => False.elim
    rintro e' t ⟨rfl, -, hcur⟩
    rw [hcur, if_neg hu]

/-- A parse of a whole row succeeds with what is derived from it without nesting deeper than
allowed, and with nothing else. -/
theorem run_eq_ok_iff_derivesIn (hg : p.grammar = .arithmetic)
    (hrow : ∀ u ∈ p.stream.body.toList, u.kind ≠ .eof) (hdepth : 0 < p.maxDepth) :
    p.run.result = .ok e ↔ (p.stream.body.toList = [] ∧ e = .empty) ∨
      DerivesIn p.maxDepth .comparison p.stream.body.toList e := by
  constructor
  · intro h
    cases hblank : p.stream.isBlank with
    | true =>
      have hempty := run_eq_ok (ends_whole_of_blank hg hblank hdepth)
      obtain rfl : e = .empty := Except.ok.inj (h.symm.trans hempty)
      exact .inl ⟨by simpa [Stream.isBlank] using hblank, rfl⟩
    | false =>
      obtain ⟨t, -, hend⟩ := run_of_ends (sound_whole hg hblank)
      rw [h] at hend
      obtain ⟨ts, hts, he, hlast⟩ := hend
      obtain rfl := eq_of_prefix_mark (fun v hv => (he.derives.isProper v hv).1) hrow hlast
        p.stream.last_kind hts.prefix_tokens (List.prefix_refl _)
      exact .inr he
  · rintro (⟨hempty, rfl⟩ | he)
    · have hblank : p.stream.isBlank = true := by simpa [Stream.isBlank] using hempty
      exact run_eq_ok (ends_whole_of_blank hg hblank hdepth)
    · exact run_eq_ok (ends_whole_of_derivesIn hg he (List.prefix_refl _) p.stream.last_kind)

/-- A parse succeeds with what the grammar derives from the whole row, and with nothing else. -/
theorem run_eq_ok_iff (hg : p.grammar = .arithmetic)
    (hrow : ∀ u ∈ p.stream.body.toList, u.kind ≠ .eof) (hdepth : p.stream.body.size < p.maxDepth) :
    p.run.result = .ok e ↔
      (p.stream.body.toList = [] ∧ e = .empty) ∨ Derives .comparison p.stream.body.toList e := by
  rw [run_eq_ok_iff_derivesIn hg hrow (Nat.zero_lt_of_lt hdepth)]
  refine or_congr_right ⟨DerivesIn.derives, fun he => he.derivesIn.mono ?_⟩
  rw [Array.length_toList]
  exact Nat.le_of_lt hdepth

end Parser

/-! ## Rows of tokens -/

section Rows

variable {ts : List Token} {last : Token} {maxDepth : Nat}

theorem parseTokens_concat {g : Grammar} (hts : ∀ t ∈ ts, t.IsProper) (hlast : last.kind = .eof) :
    parseTokens g maxDepth (ts ++ [last]) =
      (Parser.run ⟨g, ⟨ts.toArray, last, hlast⟩, maxDepth⟩).result := by
  have herror : ∀ t ∈ ts ++ [last], t.kind ≠ .error :=
    List.forall_mem_append.mpr ⟨fun t ht => (hts t ht).2, by simp [hlast]⟩
  rw [parseTokens, runTokens_eq_run herror, Stream.ofList_concat hlast]

/-- Whatever nesting is allowed, a row is accepted if it is derived without nesting deeper, and the
tree is that of the derivation. -/
theorem parseTokens_eq_ok_iff_derivesIn {e : Expr} (hts : ∀ t ∈ ts, t.kind ≠ .eof)
    (hlast : last.kind = .eof) (hdepth : 0 < maxDepth) :
    parseTokens .arithmetic maxDepth (ts ++ [last]) = .ok e ↔
      (ts = [] ∧ e = .empty) ∨ DerivesIn maxDepth .comparison ts e := by
  have hrun : (∀ t ∈ ts, t.IsProper) → (parseTokens .arithmetic maxDepth (ts ++ [last]) = .ok e ↔
      (ts = [] ∧ e = .empty) ∨ DerivesIn maxDepth .comparison ts e) := by
    intro hproper
    rw [parseTokens_concat hproper hlast]
    exact Parser.run_eq_ok_iff_derivesIn (p := ⟨.arithmetic, ⟨ts.toArray, last, hlast⟩, maxDepth⟩)
      rfl hts hdepth
  refine ⟨fun h => ?_, fun h => ?_⟩
  · have herror := kind_ne_error_of_ok h
    exact (hrun fun t ht => ⟨hts t ht, herror t (List.mem_append_left _ ht)⟩).mp h
  · refine (hrun ?_).mpr h
    rcases h with ⟨rfl, -⟩ | he
    · exact nofun
    · exact he.derives.isProper

/-- Whatever nesting is allowed, what is accepted is derived. -/
theorem derives_of_parseTokens {e : Expr} (hts : ∀ t ∈ ts, t.kind ≠ .eof) (hlast : last.kind = .eof)
    (hdepth : 0 < maxDepth) (h : parseTokens .arithmetic maxDepth (ts ++ [last]) = .ok e) :
    (ts = [] ∧ e = .empty) ∨ Derives .comparison ts e :=
  ((parseTokens_eq_ok_iff_derivesIn hts hlast hdepth).mp h).imp_right DerivesIn.derives

theorem Derives.parseTokens_eq {e : Expr} (he : Derives .comparison ts e) (hlast : last.kind = .eof)
    (hdepth : ts.length ≤ maxDepth) :
    parseTokens .arithmetic maxDepth (ts ++ [last]) = .ok e :=
  (parseTokens_eq_ok_iff_derivesIn (fun t ht => (he.isProper t ht).1) hlast
    (Nat.lt_of_lt_of_le he.length_pos hdepth)).mpr (.inr (he.derivesIn.mono hdepth))

/-- The parser accepts exactly the rows of the grammar and builds exactly the trees it gives
them. -/
theorem parseTokens_eq_ok_iff {e : Expr} (hts : ∀ t ∈ ts, t.IsProper) (hlast : last.kind = .eof)
    (hdepth : ts.length + 1 ≤ maxDepth) :
    parseTokens .arithmetic maxDepth (ts ++ [last]) = .ok e ↔
      (ts = [] ∧ e = .empty) ∨ Derives .comparison ts e := by
  rw [parseTokens_concat hts hlast]
  exact Parser.run_eq_ok_iff (p := ⟨.arithmetic, ⟨ts.toArray, last, hlast⟩, maxDepth⟩) rfl
    (fun t ht => (hts t ht).1) hdepth

/-- In `-f(x, (y))^z` the sign takes the call and the power takes the sign. -/
theorem parseTokens_signed_call :
    parseTokens .arithmetic 13
      ([.inLine .dash "-" 1, .inLine .identifier "f" 2, .inLine .openParen "(" 3,
        .inLine .identifier "x" 4, .inLine .comma "," 5, .inLine .openParen "(" 7,
        .inLine .identifier "y" 8, .inLine .closeParen ")" 9, .inLine .closeParen ")" 10,
        .inLine .caret "^" 11, .inLine .identifier "z" 12] ++ [.inLine .eof "" 13]) =
      .ok (.binary .exponent
        (.unary .subtract
          (.call (.identifier "f" ⟨1, 2⟩) [.identifier "x" ⟨1, 4⟩, .identifier "y" ⟨1, 8⟩] ⟨1, 3⟩)
          ⟨1, 1⟩)
        (.identifier "z" ⟨1, 12⟩) ⟨1, 11⟩) := by
  refine (parseTokens_eq_ok_iff (by decide) rfl (by decide)).mpr (.inr ?_)
  have hx : Derives .comparison [.inLine .identifier "x" 4] (.identifier "x" ⟨1, 4⟩) :=
    (Derives.identifier rfl).loosen (by decide)
  have hy : Derives .comparison [.inLine .identifier "y" 8] (.identifier "y" ⟨1, 8⟩) :=
    (Derives.identifier rfl).loosen (by decide)
  have hgroup := Derives.group (t := .inLine .openParen "(" 7) (u := .inLine .closeParen ")" 9)
    rfl hy rfl
  have hcall := Derives.call (t := .inLine .openParen "(" 3) (u := .inLine .closeParen ")" 10)
    (.identifier (t := .inLine .identifier "f" 2) rfl) rfl rfl
    (.cons (t := .inLine .comma "," 5) hx rfl (.last (hgroup.loosen (by decide)))) rfl
  have hsign := Derives.signed (t := .inLine .dash "-" 1) (.inr rfl) rfl (hcall.loosen (by decide))
  have hz : Derives .exponent [.inLine .identifier "z" 12] (.identifier "z" ⟨1, 12⟩) :=
    (Derives.identifier rfl).loosen (by decide)
  have hpower : Derives .exponent _ _ :=
    .operation (t := .inLine .caret "^" 11) (.head _) rfl hsign hz
  exact hpower.loosen (by decide)

end Rows

end Precedence

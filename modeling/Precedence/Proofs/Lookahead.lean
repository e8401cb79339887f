import Precedence.Proofs.RaisedPower

/-!
# One token beyond

Reading an expression looks at the tokens that are read and at the one behind them, and of that one
it asks no more than whether it binds tighter than the expression is read. So the expression is read
in the same way from any other stream that holds the same tokens there, whatever stands before them,
if the token behind them does not bind tighter either (`exprHere_withStream`).

More than one expression may end at that token, each read at a power of its own: the right operands
of operators and of signs. The power of an operand to the right is at least that of the expression
it is part of (`InfixRule.le_of_rightPower?`), so the token ends it as well; that of the operand of a
sign may be any, and has to be asked for (`Grammar.Delimits`). An expression in parentheses ends at
a token that is read.
-/

namespace Precedence

/-- Tokens of the kind end an expression read at the power, also where it ends in the operand of a
sign. -/
structure Grammar.Delimits (g : Grammar) (kind : TokenKind) (power : Power) : Prop where
  power : g.power kind ≤ power
  sign : ∀ k, g.prefixRule? k = some .sign → g.power kind ≤ g.operandPower k

/-- An operator that binds tighter than a power reads its right operand at that power or above. -/
theorem InfixRule.le_of_rightPower? {rule : InfixRule} {power own q : Power}
    (hq : rule.rightPower? own = some q) (hlt : power < own) : power ≤ q := by
  cases rule with
  | leftAssociative | juxtaposition =>
    cases hq
    exact Nat.le_of_lt hlt
  | rightAssociative =>
    cases hq
    rw [Power.lt_iff] at hlt
    rw [Power.le_iff, Power.rank_weaker]
    omega
  | call => cases hq

namespace Parser

/-- The same parser of another stream. -/
def withStream (p : Parser) (w : Stream) : Parser := { p with stream := w }

variable {α β : Type} {p : Parser} {w : Stream} {s t u : Progress} {i j : Nat} {power q : Power}

/-- Both streams hold the same tokens from `i` on up to `j`, and neither ends before `j`. There the
other stream has a token that ends the operands of all signs. -/
structure Shares (p : Parser) (w : Stream) (i j : Nat) : Prop where
  token : ∀ m, i ≤ m → m < j → w.token m = p.stream.token m
  le : j ≤ p.stream.body.size
  le' : j ≤ w.body.size
  sign : ∀ k, p.grammar.prefixRule? k = some .sign →
    p.grammar.power (w.token j).kind ≤ p.grammar.operandPower k

/-- The parse has come to `j` at the most, and there the token of the other stream ends what is read
at the power. -/
def Rests (p : Parser) (w : Stream) (j : Nat) (power : Power) (t : Progress) : Prop :=
  t.cursor ≤ j ∧ (t.cursor = j → p.grammar.power (w.token j).kind ≤ power)

theorem Rests.of_lt (h : t.cursor < j) : p.Rests w j power t :=
  ⟨Nat.le_of_lt h, fun heq => absurd heq (Nat.ne_of_lt h)⟩

/-- What holds where a parse has come to holds where it has come from. -/
theorem Rests.back (h : p.Rests w j power u) (hle : t.cursor ≤ u.cursor) : p.Rests w j power t :=
  ⟨Nat.le_trans hle h.1, fun heq => h.2 (Nat.le_antisymm h.1 (heq ▸ hle))⟩

theorem Rests.mono (h : p.Rests w j power t) (hle : power ≤ q) : p.Rests w j q t :=
  ⟨h.1, fun heq => Nat.le_trans (h.2 heq) hle⟩

/-! ## The same step in both streams -/

/-- Taken at `i` or behind it, the step `m'` does what `m` does if that one ends as `within` says. -/
def Repeats (i : Nat) (within : Progress → Prop) (m m' : ParseM α) : Prop :=
  ∀ s a t, i ≤ s.cursor → m s = .ok a t → within t → m' s = .ok a t

variable {within within' : Progress → Prop}

theorem Repeats.refl (m : ParseM α) : Repeats i within m m := fun _ _ _ _ h _ => h

/-- What is asked of the end of the first step has to follow from what is asked of the end of the
second. -/
theorem Repeats.bind {m m' : ParseM α} {f f' : α → ParseM β} (h : Repeats i within m m')
    (hforward : Forward m) (hf : ∀ a, Repeats i within' (f a) (f' a))
    (hback : ∀ a t b u, f a t = .ok b u → within' u → within t) :
    Repeats i within' (m >>= f) (m' >>= f') := by
  intro s b u hs hbind hu
  obtain ⟨a, t, hm, hrest⟩ := bind_eq_ok.mp hbind
  have ht : i ≤ t.cursor := Nat.le_trans hs (hforward _ _ _ hm)
  exact bind_eq_ok.mpr ⟨a, t, h s a t hs hm (hback a t b u hrest hu), hf a t b u ht hrest hu⟩

/-- What is decided beforehand is decided in both streams. -/
theorem Repeats.settled {decided : Except Fault α} {f f' : α → ParseM β}
    (hf : ∀ a, Repeats i within (f a) (f' a)) :
    Repeats i within (settle decided >>= f) (settle decided >>= f') := by
  have hsettle : Repeats i (fun _ => True) (settle decided) (settle decided) := .refl _
  exact hsettle.bind (forward_settle _) hf fun _ _ _ _ _ _ => trivial

/-- Two ways to read an expression at a power, of which the second does what the first does where
that one comes to rest, and neither goes back. -/
structure Mirrors (p : Parser) (w : Stream) (i j : Nat) (power : Power) (m m' : ParseM Expr) :
    Prop where
  repeats : Repeats i (p.Rests w j power) m m'
  forward : Forward m
  forward' : Forward m'

section Steps

variable (h : p.Shares w i j)

include h

theorem Shares.current_eq (hs : i ≤ s.cursor) (hlt : s.cursor < j) :
    (p.withStream w).current s = p.current s :=
  h.token _ hs hlt

theorem Shares.advanced_eq (hlt : s.cursor < j) : (p.withStream w).advanced s = p.advanced s := by
  have hp : s.cursor < p.stream.size := Nat.lt_succ_of_lt (Nat.lt_of_lt_of_le hlt h.le)
  have hw : s.cursor < (p.withStream w).stream.size :=
    Nat.lt_succ_of_lt (Nat.lt_of_lt_of_le hlt h.le')
  rw [advanced, advanced, if_pos hp, if_pos hw]

/-- A token that is read while the parse does not get behind `j` stands before it. -/
theorem Shares.lt_of_advanced (ht : (p.advanced s).cursor ≤ j) : s.cursor < j := by
  have hle := h.le
  have hsize : p.stream.size = p.stream.body.size + 1 := rfl
  rw [cursor_advanced_eq] at ht
  split at ht <;> omega

theorem repeats_close : Repeats i (·.cursor ≤ j) p.close (p.withStream w).close := by
  intro s token t hs hclose ht
  unfold close expect at hclose ⊢
  split at hclose
  · rename_i hk
    cases hclose
    have hlt := h.lt_of_advanced ht
    rw [h.current_eq hs hlt, if_pos hk, advance, h.current_eq hs hlt, h.advanced_eq hlt]
  · cases hclose

/-- What is made where a parenthesis closes. -/
theorem repeats_closing (a : α) :
    Repeats i (p.Rests w j power) (do let _ ← p.close; pure a)
      (do let _ ← (p.withStream w).close; pure a) := by
  refine (repeats_close h).bind (forward_close p) (fun _ => .refl _) ?_
  rintro _ t _ _ hpure ht
  cases hpure
  exact ht.1

omit h in
/-- The parenthesis that closes is read behind what it closes. -/
theorem cursor_lt_of_closing {a b : α}
    (hclosing : (do let _ ← p.close; pure a : ParseM α) s = .ok b u) (hu : u.cursor ≤ j) :
    s.cursor < j := by
  obtain ⟨token, t, hclose, hpure⟩ := bind_eq_ok.mp hclosing
  cases hpure
  unfold close expect at hclose
  split at hclose
  · rename_i hk
    cases hclose
    have hread := advanced_of_kind_ne (hk.trans_ne nofun)
    omega
  · cases hclose

variable {argument argument' : ParseM Expr} {expr expr' : Power → ParseM Expr} {left : Expr}
  {token : Token}

/-- The arguments of a call end before the parenthesis that closes it. -/
theorem repeats_arguments (ha : p.Mirrors w i j .default argument argument') (s : Progress)
    (es : List Expr) (t : Progress) (hs : i ≤ s.cursor)
    (hread : p.arguments argument s = .ok es t) (ht : t.cursor < j) :
    (p.withStream w).arguments argument' s = .ok es t := by
  have hle := forward_arguments ha.forward _ _ _ hread
  have hcurrent := h.current_eq hs (Nat.lt_of_le_of_lt hle ht)
  rw [arguments_eq ha.forward] at hread
  rw [arguments_eq ha.forward', hcurrent]
  split at hread
  · cases hread
  rename_i hd
  rw [if_neg hd]
  cases hfirst : argument s with
  | error fault u => rw [hfirst] at hread; cases hread
  | ok first u =>
    rw [hfirst] at hread
    dsimp only at hread
    have hsu := ha.forward _ _ _ hfirst
    have hnext : u.cursor ≤ t.cursor → (p.withStream w).current u = p.current u ∧
        argument' s = .ok first u := fun hut =>
      have hlt := Nat.lt_of_le_of_lt hut ht
      ⟨h.current_eq (Nat.le_trans hs hsu) hlt, ha.repeats s first u hs hfirst (.of_lt hlt)⟩
    cases hk : (p.current u).kind with
    | comma =>
      have hbody : u.cursor < p.stream.body.size := cursor_lt_of_kind_ne (hk.trans_ne nofun)
      have hless : p.remaining (p.advanced u) < p.remaining s :=
        Nat.lt_of_lt_of_le (remaining_advanced_lt (Nat.lt_succ_of_lt hbody))
          (Nat.sub_le_sub_left hsu _)
      simp only [hk] at hread
      cases hothers : p.arguments argument (p.advanced u) with
      | error fault v => rw [hothers] at hread; cases hread
      | ok others v =>
        rw [hothers] at hread
        cases hread
        have hadvanced := cursor_le_advanced p u
        have hut : u.cursor ≤ t.cursor :=
          Nat.le_trans hadvanced (forward_arguments ha.forward _ _ _ hothers)
        obtain ⟨hu, hfirst'⟩ := hnext hut
        have hstart : i ≤ (p.advanced u).cursor :=
          Nat.le_trans hs (Nat.le_trans hsu hadvanced)
        have hrest := repeats_arguments ha _ _ _ hstart hothers ht
        simp only [hfirst', hu, hk, h.advanced_eq (Nat.lt_of_le_of_lt hut ht), hrest]
    | closeParen =>
      simp only [hk] at hread
      cases hread
      obtain ⟨hu, hfirst'⟩ := hnext (Nat.le_refl _)
      simp only [hfirst', hu, hk]
    | _ => simp only [hk] at hread; cases hread
termination_by p.remaining s

theorem repeats_argumentsOrNone (ha : p.Mirrors w i j .default argument argument') :
    Repeats i (·.cursor < j) (p.argumentsOrNone argument)
      ((p.withStream w).argumentsOrNone argument') := by
  intro s es t hs hread ht
  have hlt := Nat.lt_of_le_of_lt (forward_argumentsOrNone ha.forward _ _ _ hread) ht
  unfold argumentsOrNone at hread ⊢
  rw [h.current_eq hs hlt]
  split at hread
  · rename_i hk
    rw [if_pos hk]
    exact hread
  · rename_i hk
    rw [if_neg hk]
    exact repeats_arguments h ha s es t hs hread ht

/-! ## Rules -/

/-- Neither stream is blank, so an end of the text that is read begins nothing in either. -/
theorem Shares.nothingBefore_eq (hj : 0 < j) :
    (p.withStream w).nothingBefore token = p.nothingBefore token := by
  have hp := Stream.isBlank_of_lt (Nat.lt_of_lt_of_le hj h.le)
  have hw : (p.withStream w).stream.isBlank = false :=
    Stream.isBlank_of_lt (Nat.lt_of_lt_of_le hj h.le')
  rw [nothingBefore, nothingBefore, hp, hw]

theorem repeats_prefixRule (hj : 0 < j) (he : ∀ q, p.Mirrors w i j q (expr q) (expr' q))
    {rule : PrefixRule} (hrule : p.grammar.prefixRule? token.kind = some rule) :
    Repeats i (p.Rests w j power) (rule.apply p expr token)
      (rule.apply (p.withStream w) expr' token) := by
  cases rule with
  | operand => exact .refl _
  | endOfInput =>
    simp only [PrefixRule.apply, h.nothingBefore_eq hj]
    exact .refl _
  | sign =>
    have hsign := h.sign token.kind hrule
    refine .settled fun operator => (he _).repeats.bind (he _).forward (fun _ => .refl _) ?_
    rintro _ t _ _ hpure ht
    cases hpure
    exact ⟨ht.1, fun _ => hsign⟩
  | group =>
    refine (he _).repeats.bind (he _).forward (fun inner => repeats_closing h inner) ?_
    exact fun inner t _ u hclosing hu => .of_lt (cursor_lt_of_closing hclosing hu.1)

theorem repeats_infixRule (he : ∀ q, p.Mirrors w i j q (expr q) (expr' q)) (rule : InfixRule)
    (hlt : power < p.grammar.power token.kind) :
    Repeats i (p.Rests w j power) (rule.apply p expr left token)
      (rule.apply (p.withStream w) expr' left token) := by
  cases hq : rule.rightPower? (p.grammar.power token.kind) with
  | some q =>
    rw [InfixRule.apply_eq hq, InfixRule.apply_eq (p := p.withStream w) hq]
    refine .settled fun operator => (he q).repeats.bind (he q).forward (fun _ => .refl _) ?_
    rintro _ t _ _ hpure ht
    cases hpure
    exact ht.mono (rule.le_of_rightPower? hq hlt)
  | none =>
    cases rule <;> cases hq
    refine .settled fun _ => ?_
    refine (repeats_argumentsOrNone h (he _)).bind (forward_argumentsOrNone (he _).forward)
      (fun es => repeats_closing h _) ?_
    exact fun es t _ u hclosing hu => cursor_lt_of_closing hclosing hu.1

/-! ## Expressions -/

theorem repeats_beginning (he : ∀ q, p.Mirrors w i j q (expr q) (expr' q)) (power : Power) :
    Repeats i (p.Rests w j power) (p.beginning expr power)
      ((p.withStream w).beginning expr' power) := by
  intro s e t hs hread ht
  unfold beginning at hread ⊢
  dsimp only at hread ⊢
  split at hread
  · cases hread
  rename_i rule hrule
  have hle := forward_prefixRule rule (fun q => (he q).forward) _ _ _ _ hread
  have hlt := h.lt_of_advanced (Nat.le_trans hle ht.1)
  rw [h.current_eq hs hlt, h.advanced_eq hlt]
  simp only [withStream, hrule]
  exact repeats_prefixRule h (Nat.zero_lt_of_lt hlt) he hrule _ _ _
    (Nat.le_trans hs (cursor_le_advanced p s)) hread ht

theorem repeats_continuation (he : ∀ q, p.Mirrors w i j q (expr q) (expr' q)) {whole : Expr}
    (hs : i ≤ s.cursor) (hbinds : power < p.grammar.power (p.current s).kind)
    (hread : p.continuation expr power left s = .ok whole t) (ht : p.Rests w j power t) :
    s.cursor < j ∧ (p.withStream w).continuation expr' power left s = .ok whole t := by
  unfold continuation at hread ⊢
  dsimp only at hread ⊢
  split at hread
  · cases hread
  rename_i rule hrule
  have hle := forward_infixRule rule (fun q => (he q).forward) _ _ _ _ _ hread
  have hlt := h.lt_of_advanced (Nat.le_trans hle ht.1)
  rw [h.current_eq hs hlt, h.advanced_eq hlt]
  simp only [withStream, hrule]
  exact ⟨hlt, repeats_infixRule h he rule hbinds _ _ _
    (Nat.le_trans hs (cursor_le_advanced p s)) hread ht⟩

/-- The loop takes the same turns in both streams, and at `j` there is none to take. -/
theorem repeats_climb (he : ∀ q, p.Mirrors w i j q (expr q) (expr' q)) (left : Expr)
    (s : Progress) (e : Expr) (t : Progress) (hs : i ≤ s.cursor) (hread : p.climb expr power left s = .ok e t)
    (ht : p.Rests w j power t) : (p.withStream w).climb expr' power left s = .ok e t := by
  have hf := fun q => (he q).forward
  rw [climb_eq hf] at hread
  rw [climb_eq fun q => (he q).forward']
  split at hread
  · rename_i hbinds
    cases hturn : p.continuation expr power left s with
    | error fault u => rw [hturn] at hread; cases hread
    | ok whole u =>
      rw [hturn] at hread
      have hsu := forward_continuation hf _ _ _ _ _ hturn
      have hless := remaining_continuation_lt hf hturn
      have hu := ht.back (forward_climb hf _ _ _ _ _ hread)
      obtain ⟨hlt, hturn'⟩ := repeats_continuation h he hs hbinds hturn hu
      rw [h.current_eq hs hlt, if_pos (by exact hbinds), hturn']
      exact repeats_climb he whole u e t (Nat.le_trans hs hsu) hread ht
  · rename_i hstops
    cases hread
    have hstops' : ¬ power < p.grammar.power ((p.withStream w).current s).kind := by
      rcases Nat.lt_or_eq_of_le ht.1 with hlt | heq
      · rwa [h.current_eq hs hlt]
      · exact Power.not_lt.mpr (by rw [current, heq]; exact ht.2 heq)
    exact if_neg hstops'
termination_by p.remaining s

/-- By induction on the room. -/
theorem repeats_expr (room : Nat) (power : Power) :
    Repeats i (p.Rests w j power) (p.expr room power) ((p.withStream w).expr room power) := by
  induction room generalizing power with
  | zero => exact fun _ _ _ _ hread _ => by cases hread
  | succ room ih =>
    have he : ∀ q, p.Mirrors w i j q (p.expr room q) ((p.withStream w).expr room q) :=
      fun q => ⟨ih q, forward_expr _ _ _, forward_expr _ _ _⟩
    have hf := forward_expr p room
    have hdeeper : Repeats i (fun _ => True) deeper deeper := .refl _
    refine hdeeper.bind forward_deeper (fun _ => ?_) fun _ _ _ _ _ _ => trivial
    refine (repeats_beginning h he power).bind (forward_beginning hf power) (fun left => ?_) ?_
    · have hclimb : Repeats i (p.Rests w j power) (p.climb (p.expr room) power left) _ :=
        fun s e t => repeats_climb h he left s e t
      refine hclimb.bind (forward_climb hf power left) (fun _ => .refl _) ?_
      rintro whole t _ _ hleave hu
      cases hleave
      exact hu
    · rintro left t e u hrest hu
      obtain ⟨whole, v, hclimb, hleave⟩ := bind_eq_ok.mp hrest
      have hle := forward_climb hf _ _ _ _ _ hclimb
      cases hleave
      exact Rests.back hu hle

end Steps

section Streams

variable {s' : Progress} {n : Expr} {follower : Token}

/-- What two streams share, said of the lists of their tokens. -/
theorem shares_of_tokens (hend : j < p.stream.tokens.length)
    (hsame : ∀ m, i ≤ m → m < j → w.tokens[m]? = p.stream.tokens[m]?)
    (hfollower : w.tokens[j]? = some follower) (hdelimits : p.grammar.Delimits follower.kind power) :
    p.Shares w i j ∧ w.token j = follower := by
  rw [Stream.length_tokens] at hend
  have hend' : j < w.tokens.length := (List.getElem?_eq_some_iff.mp hfollower).1
  rw [Stream.length_tokens] at hend'
  have htoken : w.token j = follower := by
    rw [Stream.getElem?_tokens (Nat.le_of_lt_succ hend')] at hfollower
    exact Option.some.inj hfollower
  refine ⟨⟨fun m him hmj => ?_, Nat.le_of_lt_succ hend, Nat.le_of_lt_succ hend', ?_⟩, htoken⟩
  · have hm := hsame m him hmj
    rw [Stream.getElem?_tokens (by omega), Stream.getElem?_tokens (by omega)] at hm
    exact Option.some.inj hm
  · rw [htoken]
    exact hdelimits.sign

/-- Reading an expression looks at one token beyond those that it reads. The same expression is read
up to the same index from every stream that holds the same tokens and behind them one that ends it,
however deep and whatever the record; neither stream is a mark of the end alone, since each has a
token to read before that one. -/
theorem exprHere_withStream (hread : p.exprHere power s = .ok n t)
    (hend : t.cursor < p.stream.tokens.length)
    (hsame : ∀ m, s.cursor ≤ m → m < t.cursor → w.tokens[m]? = p.stream.tokens[m]?)
    (hfollower : w.tokens[t.cursor]? = some follower)
    (hdelimits : p.grammar.Delimits follower.kind power) (hs : Abreast s s') :
    ∃ t', (p.withStream w).exprHere power s' = .ok n t' ∧ Abreast t t' := by
  obtain ⟨hshares, htoken⟩ := shares_of_tokens hend hsame hfollower hdelimits
  have hhalts : p.Rests w t.cursor power t :=
    ⟨Nat.le_refl _, fun _ => by rw [htoken]; exact hdelimits.power⟩
  have hsame : (p.withStream w).exprHere power s = .ok n t :=
    repeats_expr hshares (p.room s) power s n t (Nat.le_refl _) hread hhalts
  have hagree := agree_expr (p.withStream w) ((p.withStream w).room s) power s s' hs
  have hroom : (p.withStream w).room s = (p.withStream w).room s' := by rw [room, room, hs.depth]
  rw [exprHere] at hsame ⊢
  rw [hsame, hroom] at hagree
  exact hagree.exists_ok

/-- A parser of the tokens of `a,-x*y+z`. -/
def pairParser : Parser :=
  ⟨.arithmetic, .ofList
    [.inLine .identifier "a" 1, .inLine .comma "," 2, .inLine .dash "-" 3,
      .inLine .identifier "x" 4, .inLine .star "*" 5, .inLine .identifier "y" 6,
      .inLine .plus "+" 7, .inLine .identifier "z" 8], 4⟩

/-- The tokens of `2=-x*y-z`. -/
def comparisonStream : Stream :=
  .ofList
    [.inLine .number "2" 1, .inLine .equals "=" 2, .inLine .dash "-" 3, .inLine .identifier "x" 4,
      .inLine .star "*" 5, .inLine .identifier "y" 6, .inLine .dash "-" 7,
      .inLine .identifier "z" 8]

/-- The product of `-x` and `y` that both rows hold. -/
def signedProduct : Expr :=
  .binary .multiply (.unary .subtract (.identifier "x" ⟨1, 4⟩) ⟨1, 3⟩) (.identifier "y" ⟨1, 6⟩)
    ⟨1, 5⟩

/-- The product in front of the plus sign is read in front of the minus sign too. -/
theorem exprHere_signedProduct : ∃ t t',
    pairParser.exprHere .additive ⟨2, 1, []⟩ = .ok signedProduct t ∧
      t.cursor < pairParser.stream.tokens.length ∧
      (∀ m, 2 ≤ m → m < t.cursor → comparisonStream.tokens[m]? = pairParser.stream.tokens[m]?) ∧
      comparisonStream.tokens[t.cursor]? = some (.inLine .dash "-" 7) ∧
      pairParser.grammar.Delimits .dash .additive ∧
      (pairParser.withStream comparisonStream).exprHere .additive ⟨2, 1, []⟩ =
        .ok signedProduct t' ∧
      Abreast t t' := by
  obtain ⟨t, hread, ht⟩ : ∃ t, pairParser.exprHere .additive ⟨2, 1, []⟩ = .ok signedProduct t ∧
      t.cursor = 6 := ⟨_, by cbv, by cbv⟩
  have hend : t.cursor < pairParser.stream.tokens.length := by rw [ht]; decide
  have hsame : ∀ m, 2 ≤ m → m < t.cursor →
      comparisonStream.tokens[m]? = pairParser.stream.tokens[m]? := by
    have hrow : ∀ m < 6, 2 ≤ m →
        comparisonStream.tokens[m]? = pairParser.stream.tokens[m]? := by decide
    rw [ht]
    exact fun m hm hlt => hrow m hlt hm
  have hfollower : comparisonStream.tokens[t.cursor]? = some (.inLine .dash "-" 7) := by
    rw [ht]
    rfl
  have hdelimits : pairParser.grammar.Delimits TokenKind.dash .additive := by
    refine ⟨by decide, fun k hk => ?_⟩
    have hsigns : ∀ k ∈ TokenKind.all, pairParser.grammar.prefixRule? k = some .sign →
        pairParser.grammar.power .dash ≤ pairParser.grammar.operandPower k := by decide
    exact hsigns k k.mem_all hk
  obtain ⟨t', hread', habreast⟩ :=
    exprHere_withStream hread hend hsame hfollower hdelimits (.refl _)
  exact ⟨t, t', hread, hend, hsame, hfollower, hdelimits, hread', habreast⟩

end Streams

end Parser

end Precedence

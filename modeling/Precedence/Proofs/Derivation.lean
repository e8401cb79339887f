import Precedence.Proofs.Shows

/-!
# The grammar of arithmetic, level by level

What texts of arithmetic are expressions, and of which tree, said without a parser: a context-free
grammar with one level for each strength of binding (`Level`, `Derives`). An expression of a level
is one of the next tighter level, or is made by the productions of its own:

- `comparison`: a comparison, an equality sign of either kind, a sum;
- `sum`: a sum, a plus or a minus, a product;
- `product`: a product, a sign of multiplication or division, a juxtaposition;
- `juxtaposition`: a juxtaposition, a multiplication sign nobody wrote, an exponentiation;
- `exponent`: a signed expression, a caret, an exponentiation;
- `sign`: a plus or a minus, a signed expression;
- `atom`: a number, a name, an expression in parentheses, or an atom that is a name with arguments
  in parentheses behind it.

The five levels with an operator between two operands differ only in the signs, in the levels of
the operands and in the node (`Level.operators`, `leftOperand`, `rightOperand`, `node`), and have
one production together. The rest of the module ties the levels to the powers of the parser: an
expression read at a power is one of the level `Level.ofPower power`, and a token that stands
behind an expression of a level must not bind more tightly than `Level.follow level`.
-/

namespace Precedence

inductive Level where
  | comparison
  | sum
  | product
  | juxtaposition
  | exponent
  | sign
  | atom
deriving DecidableEq, Repr

namespace Level

/-- The levels by tightness, the loosest first. -/
def rank : Level → Nat
  | comparison => 0
  | sum => 1
  | product => 2
  | juxtaposition => 3
  | exponent => 4
  | sign => 5
  | atom => 6

theorem rank_injective {a b : Level} (h : a.rank = b.rank) : a = b := by
  revert h; cases a <;> cases b <;> decide

theorem rank_le_atom (level : Level) : level.rank ≤ atom.rank := by
  cases level <;> decide

def tighter? : Level → Option Level
  | comparison => some sum
  | sum => some product
  | product => some juxtaposition
  | juxtaposition => some exponent
  | exponent => some sign
  | sign => some atom
  | atom => none

/-- The signs that stand between the two operands of an expression of the level. -/
def operators : Level → List TokenKind
  | comparison => [.equals, .notEquals]
  | sum => [.plus, .dash]
  | product => [.star, .slash]
  | juxtaposition => [.implicitStar]
  | exponent => [.caret]
  | sign | atom => []

/-- The level of what stands before the operator: the level itself, so that operators group to
the left, and for powers the next one. -/
def leftOperand : Level → Level
  | exponent => sign
  | level => level

/-- The level of what stands behind the operator: the next one, and for powers, which group to
the right, the level itself. -/
def rightOperand : Level → Level
  | comparison => sum
  | sum => product
  | product => juxtaposition
  | juxtaposition => exponent
  | level => level

/-- The node of an operator of the level. Only a sign that was written has a place. -/
def node : Level → Operator → Expr → Expr → Position → Expr
  | juxtaposition, operator, left, right, _ => .juxtaposed operator left right
  | _, operator, left, right, position => .binary operator left right position

end Level

mutual

/-- The tokens are an expression of the level, and this is its tree. -/
inductive Derives : Level → List Token → Expr → Prop
  | tighter {level next ts e} (hnext : level.tighter? = some next) (he : Derives next ts e) :
      Derives level ts e
  | operation {level ts us left right operator} {t : Token} (hk : t.kind ∈ level.operators)
      (hop : Operator.ofKind? t.kind = some operator)
      (hl : Derives level.leftOperand ts left) (hr : Derives level.rightOperand us right) :
      Derives level (ts ++ t :: us) (level.node operator left right t.start)
  | signed {ts e operator} {t : Token} (hk : t.kind = .plus ∨ t.kind = .dash)
      (hop : Operator.ofKind? t.kind = some operator) (he : Derives .sign ts e) :
      Derives .sign (t :: ts) (.unary operator e t.start)
  | number {value} {t : Token} (hk : t.kind = .number)
      (hv : Binary64.ofString? t.text = some value) :
      Derives .atom [t] (.number value t.start)
  | identifier {t : Token} (hk : t.kind = .identifier) :
      Derives .atom [t] (.identifier t.text t.start)
  | group {ts e} {t u : Token} (hk : t.kind = .openParen) (he : Derives .comparison ts e)
      (hu : u.kind = .closeParen) : Derives .atom (t :: (ts ++ [u])) e
  | emptyCall {ts f} {t u : Token} (hf : Derives .atom ts f) (hname : f.isIdentifier = true)
      (hk : t.kind = .openParen) (hu : u.kind = .closeParen) :
      Derives .atom (ts ++ [t, u]) (.call f [] t.start)
  | call {ts us f es} {t u : Token} (hf : Derives .atom ts f) (hname : f.isIdentifier = true)
      (hk : t.kind = .openParen) (hes : DerivesArguments us es) (hu : u.kind = .closeParen) :
      Derives .atom (ts ++ t :: (us ++ [u])) (.call f es t.start)

/-- The tokens are one argument or more, with commas between them. -/
inductive DerivesArguments : List Token → List Expr → Prop
  | last {ts e} (he : Derives .comparison ts e) : DerivesArguments ts [e]
  | cons {ts us e es} {t : Token} (he : Derives .comparison ts e) (hk : t.kind = .comma)
      (hes : DerivesArguments us es) : DerivesArguments (ts ++ t :: us) (e :: es)

end

/-- What passes from each level to the next looser one passes to every looser one. -/
theorem Level.of_rank_le {P : Level → Prop} {l m : Level}
    (step : ∀ {level next}, level.tighter? = some next → P next → P level) (h : l.rank ≤ m.rank)
    (hm : P m) : P l := by
  generalize hd : m.rank - l.rank = d
  induction d generalizing l with
  | zero =>
    obtain rfl : l = m := Level.rank_injective (by omega)
    exact hm
  | succ d ih =>
    obtain ⟨n, hn, hr⟩ : ∃ n, l.tighter? = some n ∧ n.rank = l.rank + 1 := by
      cases l <;> first | exact ⟨_, rfl, rfl⟩ | (cases m <;> simp [Level.rank] at hd)
    exact step hn (ih (by omega) (by omega))

/-- A tighter expression is one of each looser level. -/
theorem Derives.loosen {l m : Level} {ts : List Token} {e : Expr} (he : Derives m ts e)
    (h : l.rank ≤ m.rank) : Derives l ts e :=
  Level.of_rank_le (P := fun level => Derives level ts e) .tighter h he

/-! ## What an expression is made of -/

mutual

theorem Derives.length_pos : ∀ {level ts e}, Derives level ts e → 0 < ts.length
  | _, _, _, .tighter _ he => he.length_pos
  | _, _, _, .operation _ _ hl _ => List.length_append ▸ Nat.add_pos_left hl.length_pos _
  | _, _, _, .signed .. => Nat.succ_pos _
  | _, _, _, .number .. => Nat.succ_pos _
  | _, _, _, .identifier .. => Nat.succ_pos _
  | _, _, _, .group .. => Nat.succ_pos _
  | _, _, _, .emptyCall hf .. => List.length_append ▸ Nat.add_pos_left hf.length_pos _
  | _, _, _, .call hf .. => List.length_append ▸ Nat.add_pos_left hf.length_pos _

theorem DerivesArguments.length_pos : ∀ {ts es}, DerivesArguments ts es → 0 < ts.length
  | _, _, .last he => he.length_pos
  | _, _, .cons he .. => List.length_append ▸ Nat.add_pos_left he.length_pos _

end

/-- A token that stands for something in the text: it neither marks the end nor holds a character
that begins nothing. -/
def Token.IsProper (t : Token) : Prop := t.kind ≠ .eof ∧ t.kind ≠ .error

instance (t : Token) : Decidable t.IsProper := inferInstanceAs (Decidable (_ ∧ _))

theorem Token.isProper_of_mem_operators {level : Level} {t : Token}
    (h : t.kind ∈ level.operators) : t.IsProper := by
  constructor <;> intro hk <;> rw [hk] at h <;> cases level <;> simp [Level.operators] at h

mutual

theorem Derives.isProper : ∀ {level ts e}, Derives level ts e → ∀ t ∈ ts, t.IsProper
  | _, _, _, .tighter _ he => he.isProper
  | _, _, _, .operation hk _ hl hr =>
      List.forall_mem_append.mpr ⟨hl.isProper,
        List.forall_mem_cons.mpr ⟨Token.isProper_of_mem_operators hk, hr.isProper⟩⟩
  | _, _, _, .signed hk _ he =>
      List.forall_mem_cons.mpr ⟨by rcases hk with hk | hk <;> simp [Token.IsProper, hk],
        he.isProper⟩
  | _, _, _, .number hk _ => List.forall_mem_singleton.mpr (by simp [Token.IsProper, hk])
  | _, _, _, .identifier hk => List.forall_mem_singleton.mpr (by simp [Token.IsProper, hk])
  | _, _, _, .group hk he hu =>
      List.forall_mem_cons.mpr ⟨by simp [Token.IsProper, hk],
        List.forall_mem_append.mpr ⟨he.isProper,
          List.forall_mem_singleton.mpr (by simp [Token.IsProper, hu])⟩⟩
  | _, _, _, .emptyCall hf _ hk hu =>
      List.forall_mem_append.mpr ⟨hf.isProper, by simp [Token.IsProper, hk, hu]⟩
  | _, _, _, .call hf _ hk hes hu =>
      List.forall_mem_append.mpr ⟨hf.isProper,
        List.forall_mem_cons.mpr ⟨by simp [Token.IsProper, hk],
          List.forall_mem_append.mpr ⟨hes.isProper,
            List.forall_mem_singleton.mpr (by simp [Token.IsProper, hu])⟩⟩⟩

theorem DerivesArguments.isProper : ∀ {ts es}, DerivesArguments ts es → ∀ t ∈ ts, t.IsProper
  | _, _, .last he => he.isProper
  | _, _, .cons he hk hes =>
      List.forall_mem_append.mpr ⟨he.isProper,
        List.forall_mem_cons.mpr ⟨by simp [Token.IsProper, hk], hes.isProper⟩⟩

end

mutual

theorem Derives.begins : ∀ {level ts e}, Derives level ts e →
    ∃ t us, ts = t :: us ∧ Grammar.arithmetic.prefixRule? t.kind ≠ none
  | _, _, _, .tighter _ he => he.begins
  | _, _, _, .operation _ _ hl _ => by
      obtain ⟨t, us, rfl, ht⟩ := hl.begins
      exact ⟨t, _, rfl, ht⟩
  | _, _, _, .signed hk _ _ => ⟨_, _, rfl, by rcases hk with hk | hk <;> rw [hk] <;> decide⟩
  | _, _, _, .number hk _ => ⟨_, _, rfl, by rw [hk]; decide⟩
  | _, _, _, .identifier hk => ⟨_, _, rfl, by rw [hk]; decide⟩
  | _, _, _, .group hk _ _ => ⟨_, _, rfl, by rw [hk]; decide⟩
  | _, _, _, .emptyCall hf .. => by
      obtain ⟨t, us, rfl, ht⟩ := hf.begins
      exact ⟨t, _, rfl, ht⟩
  | _, _, _, .call hf .. => by
      obtain ⟨t, us, rfl, ht⟩ := hf.begins
      exact ⟨t, _, rfl, ht⟩

theorem DerivesArguments.begins : ∀ {ts es}, DerivesArguments ts es →
    ∃ t us, ts = t :: us ∧ Grammar.arithmetic.prefixRule? t.kind ≠ none
  | _, _, .last he => he.begins
  | _, _, .cons he .. => by
      obtain ⟨t, us, rfl, ht⟩ := he.begins
      exact ⟨t, _, rfl, ht⟩

end

section Last

variable {ts us : List Token} {t : Token}

theorem exists_getLast_append {P : Token → Prop} (h : ∃ v ∈ us.getLast?, P v) :
    ∃ v ∈ (ts ++ us).getLast?, P v :=
  h.imp fun _ hv => ⟨List.mem_getLast?_append_of_mem_getLast? hv.1, hv.2⟩

theorem exists_getLast_cons {P : Token → Prop} (h : ∃ v ∈ us.getLast?, P v) :
    ∃ v ∈ (t :: us).getLast?, P v :=
  h.imp fun _ hv => ⟨List.mem_getLast?_cons hv.1, hv.2⟩

/-- An expression ends with an operand. -/
theorem Derives.ends : ∀ {level ts e}, Derives level ts e →
    ∃ v ∈ ts.getLast?, v.kind = .number ∨ v.kind = .identifier ∨ v.kind = .closeParen
  | _, _, _, .tighter _ he => he.ends
  | _, _, _, .operation _ _ _ hr => exists_getLast_append (exists_getLast_cons hr.ends)
  | _, _, _, .signed _ _ he => exists_getLast_cons he.ends
  | _, _, _, .number hk _ => ⟨_, rfl, .inl hk⟩
  | _, _, _, .identifier hk => ⟨_, rfl, .inr (.inl hk)⟩
  | _, _, _, .group _ _ hu =>
      exists_getLast_cons (exists_getLast_append ⟨_, rfl, .inr (.inr hu)⟩)
  | _, _, _, .emptyCall _ _ _ hu =>
      exists_getLast_append (exists_getLast_cons ⟨_, rfl, .inr (.inr hu)⟩)
  | _, _, _, .call _ _ _ _ hu =>
      exists_getLast_append (exists_getLast_cons (exists_getLast_append ⟨_, rfl, .inr (.inr hu)⟩))

end Last

/-! ## Levels and powers -/

namespace Level

/-- How tightly the signs of the level bind: operators for the first five levels, signs in front
for `sign`, and for `atom` the parenthesis that opens the arguments of a call. -/
def power : Level → Power
  | comparison => .equality
  | sum => .additive
  | product => .multiplicative
  | juxtaposition => .implicitMultiplicative
  | exponent => .exponent
  | sign => .unary
  | atom => .call

/-- How tightly a token may bind that stands right behind an expression of the level: as tightly
as the level's own signs where they group to the left, and less where they group to the right. It
is also the power at which the level's operators read their right operand. -/
def follow : Level → Power
  | exponent => .implicitMultiplicative
  | level => level.power

/-- The level of the expressions read at a power. -/
def ofPower : Power → Level
  | .default => comparison
  | .equality => sum
  | .additive => product
  | .multiplicative => juxtaposition
  | .implicitMultiplicative => exponent
  | .exponent | .unary | .call => sign

theorem rank_power (level : Level) : level.power.rank = level.rank + 1 := by
  cases level <;> rfl

theorem rank_ofPower (power : Power) : (ofPower power).rank = min power.rank 5 := by
  cases power <;> rfl

theorem rank_follow (level : Level) :
    level.follow.rank = if level = exponent then level.rank else level.rank + 1 := by
  cases level <;> rfl

theorem rank_leftOperand (level : Level) :
    level.leftOperand.rank = if level = exponent then level.rank + 1 else level.rank := by
  cases level <;> rfl

/-- A token that ends an expression read at a power may follow each expression of that level or a
tighter one. -/
theorem le_follow {level : Level} {power q : Power} (h : (ofPower power).rank ≤ level.rank)
    (hp : power < .call) (hq : q ≤ power) : q ≤ level.follow := by
  rw [Power.le_iff] at *
  rw [Power.lt_iff, show Power.call.rank = 7 from rfl] at hp
  rw [rank_ofPower] at h
  rw [rank_follow]
  split
  · rename_i he
    subst he
    simp only [rank] at h ⊢
    omega
  · omega

theorem rank_ofPower_le_atom (power : Power) : (ofPower power).rank ≤ atom.rank := by
  cases power <;> decide

theorem rank_ofPower_le_sign (power : Power) : (ofPower power).rank ≤ sign.rank := by
  cases power <;> decide

theorem rank_ofPower_le {level : Level} {power : Power} (h : power < level.power) :
    (ofPower power).rank ≤ level.rank := by
  rw [Power.lt_iff, rank_power] at h
  rw [rank_ofPower]
  omega

theorem rank_le_leftOperand (level : Level) : level.rank ≤ level.leftOperand.rank := by
  rw [rank_leftOperand]
  split <;> omega

/-- Whatever stands behind it, an atom is complete. -/
theorem le_follow_atom (power : Power) : power ≤ atom.follow := by
  cases power <;> decide

/-- An operator that may follow a level takes expressions of that level on its left. -/
theorem leftOperand_le {m level : Level} (h : m.power ≤ level.follow) :
    m.leftOperand.rank ≤ level.rank := by
  revert h
  cases m <;> cases level <;> decide

theorem eq_atom_of_call_le {level : Level} (h : Power.call ≤ level.follow) : level = atom := by
  revert h
  cases level <;> decide

/-! ## The rules of arithmetic -/

/-- What the rules say of an operator of a level. -/
structure Operates (level : Level) (kind : TokenKind) (rule : InfixRule) (operator : Operator) :
    Prop where
  infixRule? : Grammar.arithmetic.infixRule? kind = some rule
  power : Grammar.arithmetic.power kind = level.power
  rightPower? : rule.rightPower? level.power = some level.follow
  node : rule.node = level.node
  ofKind? : Operator.ofKind? kind = some operator
  left : level.power ≤ level.leftOperand.follow
  right : ofPower level.follow = level.rightOperand
  follow_lt : level.follow < .call
  rank_lt : level.rank < 5

theorem operates_of_mem {level : Level} {kind : TokenKind} (h : kind ∈ level.operators) :
    ∃ rule operator, level.Operates kind rule operator := by
  cases level with
  | comparison | sum | product =>
    simp only [operators, List.mem_cons, List.not_mem_nil, or_false] at h
    rcases h with rfl | rfl <;>
      exact ⟨.leftAssociative, _, rfl, rfl, rfl, rfl, rfl, by decide, rfl, by decide, by decide⟩
  | juxtaposition =>
    obtain rfl := List.mem_singleton.mp h
    exact ⟨.juxtaposition, _, rfl, rfl, rfl, rfl, rfl, by decide, rfl, by decide, by decide⟩
  | exponent =>
    obtain rfl := List.mem_singleton.mp h
    exact ⟨.rightAssociative, _, rfl, rfl, rfl, rfl, rfl, by decide, rfl, by decide, by decide⟩
  | sign | atom => cases h

theorem Operates.lt {level : Level} {kind : TokenKind} {rule : InfixRule} {operator : Operator}
    (h : level.Operates kind rule operator) {power : Power}
    (hp : (ofPower power).rank ≤ level.rank) : power < level.power := by
  have hrank := h.rank_lt
  rw [rank_ofPower] at hp
  rw [Power.lt_iff, rank_power]
  omega

theorem mem_operators_of_lt {kind : TokenKind} {power : Power}
    (h : power < Grammar.arithmetic.power kind) :
    kind = .openParen ∨ ∃ level : Level, kind ∈ level.operators := by
  have hne : Grammar.arithmetic.power kind ≠ .default := by
    intro he
    rw [he] at h
    exact Power.not_lt_default _ h
  cases kind with
  | openParen => exact .inl rfl
  | equals | notEquals => exact .inr ⟨.comparison, by decide⟩
  | plus | dash => exact .inr ⟨.sum, by decide⟩
  | star | slash => exact .inr ⟨.product, by decide⟩
  | implicitStar => exact .inr ⟨.juxtaposition, by decide⟩
  | caret => exact .inr ⟨.exponent, by decide⟩
  | eof | number | identifier | error | closeParen | comma => exact absurd rfl hne

end Level

theorem Operator.exists_of_sign {kind : TokenKind} (h : kind = .plus ∨ kind = .dash) :
    ∃ operator, Operator.ofKind? kind = some operator := by
  rcases h with rfl | rfl <;> exact ⟨_, rfl⟩

namespace Grammar

theorem prefixRule?_arithmetic (kind : TokenKind) :
    arithmetic.prefixRule? kind = none ∨ (kind = .number ∨ kind = .identifier) ∨
      (kind = .plus ∨ kind = .dash) ∨ kind = .openParen ∨ kind = .eof := by
  cases kind <;> decide

end Grammar

end Precedence

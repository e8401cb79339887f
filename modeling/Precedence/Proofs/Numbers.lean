import Precedence.Proofs.Comments
import Precedence.Proofs.Range
import Precedence.Proofs.Stretch

/-!
# The numbers of an expression

Each numeral of a text that is accepted makes a number of its expression, in order and each at its
place, and there are no other numbers (`Derives.numbers`). A number is what its numeral is read as:
without a sign, and finite exactly if the numeral is in range (`isFinite_numbers_iff`). A numeral
that is out of range is read as infinity like any other number, and nothing is reported: by itself
it is a text that is accepted (`exists_parseWithin_numeral`).
-/

namespace Precedence

namespace Expr

/-- The number of a node that is one, with its place. -/
def number? : Expr → Option (Binary64 × Position)
  | number value position => some (value, position)
  | _ => none

/-- The numbers of an expression, in the order of their tokens. -/
def numbers (e : Expr) : List (Binary64 × Position) := e.walk.filterMap number?

theorem numbers_unary (operator : Operator) (operand : Expr) (position : Position) :
    (unary operator operand position).numbers = operand.numbers := rfl

theorem numbers_binary (operator : Operator) (left right : Expr) (position : Position) :
    (binary operator left right position).numbers = left.numbers ++ right.numbers :=
  List.filterMap_append

theorem numbers_juxtaposed (operator : Operator) (left right : Expr) :
    (juxtaposed operator left right).numbers = left.numbers ++ right.numbers :=
  List.filterMap_append

theorem numbers_call (callee : Expr) (arguments : List Expr) (position : Position) :
    (call callee arguments position).numbers =
      callee.numbers ++ (walkAll arguments).filterMap number? :=
  List.filterMap_append

mutual

/-- An expression equals itself exactly if none of its numbers is `nan`. -/
theorem equal_self_iff : ∀ e : Expr, e.equal e = true ↔ ∀ n ∈ e.numbers, n.1 ≠ .nan
  | empty | identifier _ _ => by simp [equal, numbers, walk, number?]
  | number _ _ => by simp [equal, numbers, walk, number?, Binary64.equal_self_iff]
  | unary _ operand _ => by
      rw [numbers_unary, ← operand.equal_self_iff]
      simp [equal]
  | binary _ left right _ => by
      rw [numbers_binary, List.forall_mem_append, ← left.equal_self_iff, ← right.equal_self_iff]
      simp [equal]
  | juxtaposed _ left right => by
      rw [numbers_juxtaposed, List.forall_mem_append, ← left.equal_self_iff,
        ← right.equal_self_iff]
      simp [equal]
  | call callee arguments _ => by
      rw [numbers_call, List.forall_mem_append, ← callee.equal_self_iff,
        ← equalAll_self_iff arguments]
      simp [equal]

theorem equalAll_self_iff : ∀ es : List Expr,
    equalAll es es = true ↔ ∀ n ∈ (walkAll es).filterMap number?, n.1 ≠ .nan
  | [] => by simp [equalAll, walkAll]
  | e :: rest => by
      rw [walkAll, List.filterMap_append, List.forall_mem_append, ← equalAll_self_iff rest,
        equalAll, Bool.and_eq_true, e.equal_self_iff]
      rfl

end

end Expr

/-- The number is what the token is read as. -/
def Token.Reads (t : Token) (n : Binary64 × Position) : Prop :=
  Binary64.ofString? t.text = some n.1 ∧ n.2 = t.start

/-- The numbers among the tokens. -/
def numerals (ts : List Token) : List Token := ts.filter (·.kind = .number)

theorem numerals_nil : numerals [] = [] := rfl

theorem numerals_append (ts us : List Token) : numerals (ts ++ us) = numerals ts ++ numerals us :=
  List.filter_append ..

theorem numerals_cons_of_ne {t : Token} (ht : t.kind ≠ .number) (ts : List Token) :
    numerals (t :: ts) = numerals ts := List.filter_cons_of_neg (by simpa using ht)

theorem numbers_node {level : Level} {operator : Operator} {left right : Expr}
    {position : Position} :
    (level.node operator left right position).numbers = left.numbers ++ right.numbers := by
  cases level with
  | juxtaposition => exact Expr.numbers_juxtaposed operator left right
  | _ => exact Expr.numbers_binary operator left right position

theorem kind_ne_number_of_mem_operators {level : Level} {t : Token}
    (hk : t.kind ∈ level.operators) : t.kind ≠ .number := by
  intro h
  rw [h] at hk
  cases level <;> simp [Level.operators] at hk

mutual

/-- The numbers of an expression are those that its numerals are read as, one by one. -/
theorem Derives.numbers : ∀ {level ts e}, Derives level ts e →
    List.Forall₂ Token.Reads (numerals ts) e.numbers
  | _, _, _, .tighter _ he => he.numbers
  | _, _, _, .operation hk _ hl hr => by
      rw [numerals_append, numerals_cons_of_ne (kind_ne_number_of_mem_operators hk), numbers_node]
      exact List.rel_append hl.numbers hr.numbers
  | _, _, _, .signed hk _ he => by
      rw [numerals_cons_of_ne (by rcases hk with hk | hk <;> rw [hk] <;> nofun)]
      exact he.numbers
  | _, _, _, .number hk hv => by
      rw [numerals, List.filter_cons_of_pos (by simpa using hk)]
      exact .cons ⟨hv, rfl⟩ .nil
  | _, _, _, .identifier hk => by
      rw [numerals_cons_of_ne (by rw [hk]; nofun)]
      exact .nil
  | _, _, _, .group hk he hu => by
      rw [numerals_cons_of_ne (by rw [hk]; nofun), numerals_append,
        numerals_cons_of_ne (by rw [hu]; nofun), numerals_nil, List.append_nil]
      exact he.numbers
  | _, _, _, .emptyCall hf _ hk hu => by
      rw [numerals_append, numerals_cons_of_ne (by rw [hk]; nofun),
        numerals_cons_of_ne (by rw [hu]; nofun), Expr.numbers_call]
      exact List.rel_append hf.numbers .nil
  | _, _, _, .call hf _ hk hes hu => by
      rw [numerals_append, numerals_cons_of_ne (by rw [hk]; nofun), numerals_append,
        numerals_cons_of_ne (by rw [hu]; nofun), numerals_nil, List.append_nil, Expr.numbers_call]
      exact List.rel_append hf.numbers hes.numbers

theorem DerivesArguments.numbers : ∀ {ts es}, DerivesArguments ts es →
    List.Forall₂ Token.Reads (numerals ts) ((Expr.walkAll es).filterMap Expr.number?)
  | _, _, .last he => by
      rw [Expr.walkAll, Expr.walkAll, List.append_nil]
      exact he.numbers
  | _, _, .cons he hk hes => by
      rw [numerals_append, numerals_cons_of_ne (by rw [hk]; nofun), Expr.walkAll,
        List.filterMap_append]
      exact List.rel_append he.numbers hes.numbers

end

/-! ## Texts -/

theorem Magnitude.eq_infinity {m : Magnitude} (h : ¬ m.isFinite = true) : m = .infinity := by
  obtain ⟨rank, hle⟩ := m
  rw [isFinite, decide_eq_true_eq] at h
  obtain rfl : rank = infinityRank := Nat.le_antisymm hle (Nat.not_lt.mp h)
  rfl

section Texts

variable {source : String} {maxDepth : Nat} {e : Expr}

/-- The number has no sign, is what the token is read as, at its place, and is finite exactly if
the token is in range. -/
structure Token.Counts (t : Token) (n : Binary64 × Position) : Prop where
  reads : t.Reads n
  unsigned : ∃ size, n.1 = .signed false size
  finite : n.1.isFinite = true ↔ InRange t.text.toList

theorem Token.Reads.counts {t : Token} {n : Binary64 × Position} (h : t.Reads n)
    (ht : IsNumeral t.text.toList) : t.Counts n := by
  obtain ⟨m, hread, hfinite⟩ := ht.exists_read
  have hvalue : n.1 = .signed false m := Option.some.inj (h.1.symm.trans hread)
  exact ⟨h, ⟨m, hvalue⟩, by rw [hvalue]; exact hfinite⟩

theorem forall_iff_of_forall₂ {α β : Type} {R : α → β → Prop} {P : α → Prop} {Q : β → Prop}
    {xs : List α} {ys : List β} (h : List.Forall₂ R xs ys) (hR : ∀ x y, R x y → (P x ↔ Q y)) :
    (∀ x ∈ xs, P x) ↔ ∀ y ∈ ys, Q y := by
  induction h with
  | nil => exact iff_of_true nofun nofun
  | cons hxy _ ih => rw [List.forall_mem_cons, List.forall_mem_cons, hR _ _ hxy, ih]

/-- The numbers of an accepted text are those of its numerals, one by one. -/
theorem counts_of_parseWithin (h : parseWithin maxDepth source = .ok e) :
    List.Forall₂ Token.Counts (numerals (tokensOf (scan source))) e.numbers := by
  obtain ⟨row, p, hrow, hderives⟩ := derives_of_parseWithin h
  have hreads : List.Forall₂ Token.Reads (numerals (tokensOf (scan source))) e.numbers := by
    have hlast : numerals [.eof p] = [] := rfl
    rw [hrow, numerals_append, hlast, List.append_nil]
    rcases hderives with ⟨rfl, rfl⟩ | he
    · exact .nil
    · exact he.numbers
  have hnumeral : ∀ t ∈ numerals (tokensOf (scan source)), IsNumeral t.text.toList := by
    intro t ht
    obtain ⟨hmem, hk⟩ := List.mem_filter.mp ht
    exact isNumeral_of_number hmem (by simpa using hk)
  exact ((List.forall₂_and_left _ _).mpr ⟨hnumeral, hreads⟩).imp fun t n ⟨ht, hn⟩ => hn.counts ht

/-- A numeral by itself is accepted, whatever its value. -/
theorem exists_parseWithin_numeral {text : String} (h : IsNumeral text.toList)
    (hdepth : 0 < maxDepth) :
    ∃ m place, parseWithin maxDepth text = .ok (.number (.signed false m) place) ∧
      (m.isFinite = true ↔ InRange text.toList) := by
  have hproper : ∀ ts, Single .number text.toList ts → ∀ t ∈ ts, t.kind ≠ .error := by
    rintro _ ⟨t, rfl, hk, -⟩
    exact List.forall_mem_singleton.mpr (by rw [hk]; nofun)
  obtain ⟨_, p, ⟨t, rfl, hk, ht⟩, -, htokenize⟩ :=
    (scansTo_numeral h apart_nil).exists_tokenize hproper
  obtain ⟨m, hread, hfinite⟩ := h.exists_read
  have hvalue : Binary64.ofString? t.text = some (.signed false m) := by
    rw [ht, Binary64.ofString?, String.toList_ofList, hread]
  refine ⟨m, t.start, ?_, hfinite⟩
  rw [parseWithin, htokenize]
  exact ((Derives.number hk hvalue).loosen (Nat.zero_le _)).parseTokens_eq rfl hdepth

/-- An accepted text has finite numbers only exactly if all its numerals are in range; each of them
makes a number, whatever its value. -/
theorem isFinite_numbers_iff (h : parseWithin maxDepth source = .ok e) :
    List.Forall₂ Token.Counts (numerals (tokensOf (scan source))) e.numbers ∧
      ((∀ n ∈ e.numbers, n.1.isFinite = true) ↔
        ∀ t ∈ numerals (tokensOf (scan source)), InRange t.text.toList) := by
  have hcounts := counts_of_parseWithin h
  exact ⟨hcounts, (forall_iff_of_forall₂ hcounts fun _ _ hn => hn.finite.symm).symm⟩

/-- In `0.5x + 7` both numerals are in range. -/
theorem isFinite_numbers_sum : ∃ e, parseWithin 9 "0.5x + 7" = .ok e ∧
    List.Forall₂ Token.Counts (numerals (tokensOf (scan "0.5x + 7"))) e.numbers ∧
      ((∀ n ∈ e.numbers, n.1.isFinite = true) ↔
        ∀ t ∈ numerals (tokensOf (scan "0.5x + 7")), InRange t.text.toList) := by
  have hok : (parseWithin 9 "0.5x + 7").toBool = true := by decide +kernel
  cases h : parseWithin 9 "0.5x + 7" with
  | error fault => rw [h] at hok; cases hok
  | ok e => exact ⟨e, rfl, isFinite_numbers_iff h⟩

/-- Ten to the 309, written out. -/
def tenToThe309 : String := .ofList ('1' :: List.replicate 309 '0')

/-- It is beyond every finite double, and it is accepted as infinity. -/
theorem parse_tenToThe309 :
    (∃ place, parse tenToThe309 = .ok (.number (.signed false .infinity) place)) ∧
      ¬ ∀ source maxDepth e, parseWithin maxDepth source = .ok e →
        ∀ n ∈ e.numbers, n.1.isFinite = true := by
  have htext : tenToThe309.toList = '1' :: List.replicate 309 '0' := String.toList_ofList
  have hnumeral : IsNumeral tenToThe309.toList := by
    rw [htext]
    exact .whole ⟨nofun, List.forall_mem_cons.mpr ⟨by decide, fun _ => isAsciiDigit_of_mem_zeros⟩⟩
  have hout : ¬ InRange tenToThe309.toList := by
    rw [htext]
    decide +kernel
  obtain ⟨m, place, hparse, hfinite⟩ :=
    @exists_parseWithin_numeral defaultMaxDepth _ hnumeral (by decide)
  have hm : m = .infinity := Magnitude.eq_infinity fun h => hout (hfinite.mp h)
  subst hm
  refine ⟨⟨place, hparse⟩, fun hall => ?_⟩
  have hinfinite := hall _ _ _ hparse (.signed false .infinity, place) (.head _)
  cases hinfinite

end Texts

end Precedence

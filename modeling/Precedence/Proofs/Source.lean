import Precedence.Expr.Text
import Precedence.Proofs.Accepts
import Precedence.Proofs.NumberText
import Precedence.Proofs.Stretch

/-!
# Expressions written out

An expression is written as a text of arithmetic with all its parentheses (`Expr.source`). The text
stands for the expression and for no other, so long as the expression is one that arithmetic has
(`Expr.isWritable`): then parsing it gives the expression back, but for the places
(`parseWithin_source`).

The text of every expression is scanned into an operand, whatever stands apart behind it
(`ReadsBack`). So the parts of a text never run into each other, and the parentheses keep them
together as the expression does.
-/

namespace Precedence

/-! ## The text of an expression -/

namespace Expr

mutual

/-- The expression as a text of arithmetic, in which every operation stands in parentheses. -/
def source : Expr → String
  | empty => ""
  | number value _ => value.text
  | identifier name _ => name
  | unary operator operand _ => "(" ++ operator.symbol ++ operand.source ++ ")"
  | binary operator left right _ =>
      "(" ++ left.source ++ " " ++ operator.symbol ++ " " ++ right.source ++ ")"
  | juxtaposed _ left right => "((" ++ left.source ++ ")(" ++ right.source ++ "))"
  | call callee arguments _ => callee.source ++ "(" ++ argumentsSource arguments ++ ")"

/-- Arguments with commas between them. -/
def argumentsSource : List Expr → String
  | [] => ""
  | [e] => e.source
  | e :: rest => e.source ++ "," ++ argumentsSource rest

end

mutual

/-- Is the expression one that arithmetic has a text for? -/
def isWritable : Expr → Bool
  | empty => false
  | number (.signed false size) _ => size.isFinite
  | number _ _ => false
  | identifier name _ => isName name.toList
  | unary operator operand _ => [.add, .subtract].contains operator && operand.isWritable
  | binary _ left right _ => left.isWritable && right.isWritable
  | juxtaposed operator left right =>
      operator = .multiply && left.isWritable && right.isWritable
  | call callee arguments _ => callee.isIdentifier && callee.isWritable && allWritable arguments

def allWritable : List Expr → Bool
  | [] => true
  | e :: rest => e.isWritable && allWritable rest

end

mutual

/-- The expression with every place put to the origin. -/
def placeless : Expr → Expr
  | empty => empty
  | number value _ => number value .origin
  | identifier name _ => identifier name .origin
  | unary operator operand _ => unary operator operand.placeless .origin
  | binary operator left right _ => binary operator left.placeless right.placeless .origin
  | juxtaposed operator left right => juxtaposed operator left.placeless right.placeless
  | call callee arguments _ => call callee.placeless (allPlaceless arguments) .origin

def allPlaceless : List Expr → List Expr
  | [] => []
  | e :: rest => e.placeless :: allPlaceless rest

end

end Expr

theorem Expr.isWritable_of_mem {arguments : List Expr} {a : Expr}
    (h : allWritable arguments = true) (ha : a ∈ arguments) : a.isWritable = true := by
  induction arguments with
  | nil => cases ha
  | cons first rest ih =>
    rw [allWritable, Bool.and_eq_true] at h
    rcases List.mem_cons.mp ha with rfl | ha
    · exact h.1
    · exact ih h.2 ha

/-! ## Written expressions are read back -/

/-- The symbol stands between the operands of a level whose nodes have places. -/
theorem Operator.exists_level (operator : Operator) :
    ∃ level : Level, operator.written ∈ level.operators ∧ level ≠ .juxtaposition := by
  cases operator with
  | add | subtract => exact ⟨.sum, by decide, nofun⟩
  | multiply | divide => exact ⟨.product, by decide, nofun⟩
  | exponent => exact ⟨.exponent, by decide, nofun⟩
  | equal | notEqual => exact ⟨.comparison, by decide, nofun⟩

variable {rest : List Char}

/-- The tokens are an operand of this tree, places apart. -/
def IsOperand (n : Expr) (ts : List Token) : Prop :=
  ∃ e, Derives .atom ts e ∧ e.placeless = n.placeless

/-- In front of what stands apart, the text of the expression is scanned into an operand of its
tree. -/
def ReadsBack (n : Expr) : Prop :=
  ∀ ⦃rest⦄, Apart rest → ScansTo n.source.toList rest (IsOperand n)

section Nodes

variable {x y n : Expr} {operator : Operator} {position : Position}

theorem readsBack_number {m : Magnitude} (hfinite : m.isFinite = true) :
    ReadsBack (.number (.signed false m) position) := by
  intro rest hrest
  have htext : (Binary64.signed false m).text = .ofList m.text := by
    rw [Binary64.text, if_neg Bool.false_ne_true]
  rw [Expr.source, htext, String.toList_ofList]
  refine (scansTo_numeral (Magnitude.isNumeral_text_and_read hfinite).1 hrest).imp ?_
  rintro _ ⟨t, rfl, hk, ht⟩
  have hvalue : Binary64.ofString? t.text = some (.signed false m) := by
    rw [ht, ← htext]
    exact Binary64.ofString?_text hfinite
  exact ⟨_, .number hk hvalue, rfl⟩

theorem readsBack_identifier {name : String} (hname : isName name.toList = true) :
    ReadsBack (.identifier name position) := by
  intro rest hrest
  rw [Expr.source]
  refine (scansTo_name hname fun c hc => (hrest.ends c hc).1).imp ?_
  rintro _ ⟨t, rfl, hk, ht⟩
  refine ⟨_, .identifier hk, ?_⟩
  rw [ht, String.ofList_toList]
  rfl

theorem readsBack_unary (hoperator : operator = .add ∨ operator = .subtract) (hx : ReadsBack x) :
    ReadsBack (.unary operator x position) := by
  intro rest hrest
  have htext : (Expr.unary operator x position).source.toList =
      ['('] ++ (operator.symbol.toList ++ (x.source.toList ++ [')'])) := by
    simp [Expr.source]
  have hsign : operator.written = .plus ∨ operator.written = .dash := by
    rcases hoperator with rfl | rfl
    · exact .inl rfl
    · exact .inr rfl
  rw [htext]
  refine (scansTo_openParen.append ((scansTo_symbol operator).append
    ((hx apart_closeParen).append (scansTo_closeParen hrest)))).imp ?_
  rintro _ ⟨_, _, rfl, ⟨t, rfl, ht, -⟩, _, _, rfl, ⟨sign, rfl, hk, -⟩, us, _, rfl,
    ⟨e, he, hplaceless⟩, ⟨u, rfl, hu, -⟩⟩
  have hsigned := Derives.signed (hk ▸ hsign) (hk ▸ operator.ofKind?_written)
    (he.loosen (l := .sign) (by decide))
  refine ⟨_, .group ht (hsigned.loosen (by decide)) hu, ?_⟩
  simp only [Expr.placeless, hplaceless]

/-- Only a sign nobody wrote makes a node without a place. -/
theorem Level.node_of_ne {level : Level} (h : level ≠ .juxtaposition) {left right : Expr} :
    level.node operator left right position = .binary operator left right position := by
  cases level with
  | juxtaposition => exact absurd rfl h
  | _ => rfl

theorem readsBack_binary (hx : ReadsBack x) (hy : ReadsBack y) :
    ReadsBack (.binary operator x y position) := by
  intro rest hrest
  have htext : (Expr.binary operator x y position).source.toList =
      ['('] ++ (x.source.toList ++ ([' '] ++ (operator.symbol.toList ++ ([' '] ++
        (y.source.toList ++ [')']))))) := by
    simp [Expr.source]
  obtain ⟨level, hlevel, hne⟩ := operator.exists_level
  have hapart := @apart_symbol ([' '] ++ (y.source.toList ++ [')']) ++ rest) operator
  rw [← List.append_assoc] at hapart
  rw [htext]
  refine (scansTo_openParen.append ((hx hapart).append (scansTo_space.append
    ((scansTo_symbol operator).append (scansTo_space.append
      ((hy apart_closeParen).append (scansTo_closeParen hrest))))))).imp ?_
  rintro _ ⟨_, _, rfl, ⟨t, rfl, ht, -⟩, ts, _, rfl, ⟨e, he, hplaceless⟩, _, _, rfl, rfl, _, _, rfl,
    ⟨sign, rfl, hk, -⟩, _, _, rfl, rfl, us, _, rfl, ⟨f, hf, hplaceless'⟩, ⟨u, rfl, hu, -⟩⟩
  have hoperation := Derives.operation (hk ▸ hlevel) (hk ▸ operator.ofKind?_written)
    (he.loosen level.leftOperand.rank_le_atom) (hf.loosen level.rightOperand.rank_le_atom)
  rw [Level.node_of_ne hne] at hoperation
  have hgroup := Derives.group ht (hoperation.loosen (Nat.zero_le _)) hu
  rw [List.append_assoc] at hgroup
  refine ⟨_, hgroup, ?_⟩
  simp only [Expr.placeless, hplaceless, hplaceless']

theorem readsBack_juxtaposed (hx : ReadsBack x) (hy : ReadsBack y) :
    ReadsBack (.juxtaposed .multiply x y) := by
  intro rest hrest
  have htext : (Expr.juxtaposed .multiply x y).source.toList =
      ['('] ++ (['('] ++ (x.source.toList ++ ([')'] ++ (['('] ++ (y.source.toList ++
        ([')'] ++ [')'])))))) := by
    simp [Expr.source]
  rw [htext]
  refine (scansTo_openParen.append (scansTo_openParen.append ((hx apart_closeParen).append
    (scansTo_joined.append (scansTo_openParen.append ((hy apart_closeParen).append
      ((scansTo_closeParen apart_closeParen).append (scansTo_closeParen hrest)))))))).imp ?_
  rintro _ ⟨_, _, rfl, ⟨t, rfl, ht, -⟩, _, _, rfl, ⟨t₁, rfl, ht₁, -⟩, ts, _, rfl,
    ⟨e, he, hplaceless⟩, _, _, rfl, ⟨_, _, rfl, ⟨u₁, rfl, hu₁, -⟩, ⟨star, rfl, hstar, -⟩⟩,
    _, _, rfl, ⟨t₂, rfl, ht₂, -⟩, us, _, rfl, ⟨f, hf, hplaceless'⟩, _, _, rfl, ⟨u₂, rfl, hu₂, -⟩,
    ⟨u, rfl, hu, -⟩⟩
  have hleft := Derives.group ht₁ (he.loosen (Nat.zero_le _)) hu₁
  have hright := Derives.group ht₂ (hf.loosen (Nat.zero_le _)) hu₂
  have hlevel : star.kind ∈ Level.juxtaposition.operators := by rw [hstar]; decide
  have hoperator : Operator.ofKind? star.kind = some .multiply := by rw [hstar]; rfl
  have hproduct := Derives.operation hlevel hoperator (hleft.loosen (by decide))
    (hright.loosen (by decide))
  have hgroup := Derives.group ht (hproduct.loosen (by decide)) hu
  simp only [List.append_assoc, List.cons_append] at hgroup
  refine ⟨_, hgroup, ?_⟩
  simp only [Level.node, Expr.placeless, hplaceless, hplaceless']

/-- Arguments of which each is read back are read back together. -/
theorem scansTo_arguments {arguments : List Expr} (hne : arguments ≠ [])
    (h : ∀ a ∈ arguments, ReadsBack a) (hrest : Apart rest) :
    ScansTo (Expr.argumentsSource arguments).toList rest fun ts =>
      ∃ es, DerivesArguments ts es ∧ Expr.allPlaceless es = Expr.allPlaceless arguments := by
  induction arguments with
  | nil => exact absurd rfl hne
  | cons a others ih =>
    obtain ⟨ha, hothers⟩ := List.forall_mem_cons.mp h
    cases others with
    | nil =>
      refine (ha hrest).imp ?_
      rintro ts ⟨e, he, hplaceless⟩
      refine ⟨[e], .last (he.loosen (Nat.zero_le _)), ?_⟩
      simp only [Expr.allPlaceless, hplaceless]
    | cons b others =>
      have htext : (Expr.argumentsSource (a :: b :: others)).toList =
          a.source.toList ++ ([','] ++ (Expr.argumentsSource (b :: others)).toList) := by
        simp [Expr.argumentsSource]
      rw [htext]
      refine ((ha apart_comma).append (scansTo_comma.append (ih nofun hothers))).imp ?_
      rintro _ ⟨ts, _, rfl, ⟨e, he, hplaceless⟩, _, us, rfl, ⟨t, rfl, ht, -⟩, es, hes, hall⟩
      refine ⟨e :: es, .cons (he.loosen (Nat.zero_le _)) ht hes, ?_⟩
      rw [Expr.allPlaceless, hplaceless, hall, ← Expr.allPlaceless]

theorem readsBack_call {name : String} {place : Position} {arguments : List Expr}
    (hname : isName name.toList = true) (h : ∀ a ∈ arguments, ReadsBack a) :
    ReadsBack (.call (.identifier name place) arguments position) := by
  intro rest hrest
  have htext : (Expr.call (.identifier name place) arguments position).source.toList =
      name.toList ++ (['('] ++ ((Expr.argumentsSource arguments).toList ++ [')'])) := by
    simp [Expr.source]
  have hcallee : ScansTo name.toList (['('] ++ ((Expr.argumentsSource arguments).toList ++ [')']) ++
      rest) (Single .identifier name.toList) :=
    scansTo_name hname (by rintro _ ⟨⟩; decide)
  rw [htext]
  by_cases hnone : arguments = []
  · subst hnone
    refine (hcallee.append (scansTo_openParen.append (scansTo_closeParen hrest))).imp ?_
    rintro _ ⟨_, _, rfl, ⟨f, rfl, hf, hword⟩, _, _, rfl, ⟨t, rfl, ht, -⟩, ⟨u, rfl, hu, -⟩⟩
    refine ⟨_, .emptyCall (.identifier hf) rfl ht hu, ?_⟩
    rw [hword, String.ofList_toList]
    rfl
  · refine (hcallee.append (scansTo_openParen.append
      ((scansTo_arguments hnone h apart_closeParen).append (scansTo_closeParen hrest)))).imp ?_
    rintro _ ⟨_, _, rfl, ⟨f, rfl, hf, hword⟩, _, _, rfl, ⟨t, rfl, ht, -⟩, us, _, rfl,
      ⟨es, hes, hall⟩, ⟨u, rfl, hu, -⟩⟩
    refine ⟨_, .call (.identifier hf) rfl ht hes hu, ?_⟩
    rw [hword, String.ofList_toList]
    simp only [Expr.placeless, hall]

end Nodes

theorem readsBack_of_isWritable (n : Expr) : n.isWritable = true → ReadsBack n := by
  induction n using Expr.inductionOn with
  | empty => exact nofun
  | number value position =>
    intro h
    cases value with
    | nan => cases h
    | signed negative m =>
      cases negative with
      | true => cases h
      | false => exact readsBack_number h
  | identifier name position => exact readsBack_identifier
  | unary operator x position ihx =>
    intro h
    simp only [Expr.isWritable, Bool.and_eq_true, List.contains_eq_mem, decide_eq_true_eq,
      List.mem_cons, List.not_mem_nil, or_false] at h
    exact readsBack_unary h.1 (ihx h.2)
  | binary operator x y position ihx ihy =>
    intro h
    simp only [Expr.isWritable, Bool.and_eq_true] at h
    exact readsBack_binary (ihx h.1) (ihy h.2)
  | juxtaposed operator x y ihx ihy =>
    intro h
    simp only [Expr.isWritable, Bool.and_eq_true, decide_eq_true_eq] at h
    obtain ⟨⟨rfl, hx⟩, hy⟩ := h
    exact readsBack_juxtaposed (ihx hx) (ihy hy)
  | call callee arguments position ihf ihs =>
    intro h
    simp only [Expr.isWritable, Bool.and_eq_true] at h
    obtain ⟨⟨hname, hcallee⟩, hall⟩ := h
    cases callee with
    | identifier name place =>
      exact readsBack_call hcallee fun a ha => ihs a ha (Expr.isWritable_of_mem hall ha)
    | _ => cases hname

/-- The text of an expression is scanned without a fault, into an operand of its tree and the token
that marks the end. -/
theorem ReadsBack.exists_tokenize {n : Expr} (h : ReadsBack n) :
    ∃ ts p, IsOperand n ts ∧ tokensOf (scan n.source) = ts ++ [.eof p] ∧
      tokenize n.source = .ok (ts ++ [.eof p]) := by
  refine ScansTo.exists_tokenize (h apart_nil) fun ts hts t ht => ?_
  obtain ⟨e, he, -⟩ := hts
  exact (he.isProper t ht).2

/-- Parsing the text of an expression gives the expression back, but for the places. -/
theorem parseWithin_source {n : Expr} {maxDepth : Nat} (hn : n.isWritable = true)
    (hdepth : (tokensOf (scan n.source)).dropLast.length ≤ maxDepth) :
    ∃ e, parseWithin maxDepth n.source = .ok e ∧ e.placeless = n.placeless := by
  obtain ⟨ts, p, ⟨e, he, hplaceless⟩, htokens, htokenize⟩ :=
    (readsBack_of_isWritable n hn).exists_tokenize
  rw [htokens, List.dropLast_concat] at hdepth
  refine ⟨e, ?_, hplaceless⟩
  rw [parseWithin, htokenize]
  exact (he.loosen (Nat.zero_le _)).parseTokens_eq rfl hdepth

/-- A call of which the arguments hold every other sort of node. -/
def nestedCall : Expr :=
  .call (.identifier "f" .origin)
    [.binary .exponent (.unary .subtract (.identifier "x" .origin) .origin)
        (.number (.signed false ⟨0x3FE0000000000000, by decide⟩) .origin) .origin,
      .juxtaposed .multiply (.identifier "k" .origin) (.identifier "y" .origin)] .origin

/-- It is read back from `f(((-x) ^ 0.5),((k)(y)))`, which takes 21 tokens. -/
theorem parseWithin_source_nestedCall :
    nestedCall.isWritable = true ∧ nestedCall.source = "f(((-x) ^ 0.5),((k)(y)))" ∧
      (tokensOf (scan nestedCall.source)).dropLast.length = 21 ∧
      ∃ e, parseWithin 21 nestedCall.source = .ok e ∧ e.placeless = nestedCall.placeless := by
  have hn : nestedCall.isWritable = true := by decide
  have hlength : (tokensOf (scan nestedCall.source)).dropLast.length = 21 := by decide +kernel
  exact ⟨hn, by decide +kernel, hlength, parseWithin_source hn (Nat.le_of_eq hlength)⟩

end Precedence

import Mathlib.Order.Bounds.Defs
import Precedence.Expr.Basic

/-!
# Paths in an expression

A node is reached from the root over edges (`Expr.descend`). Edges that lead to what stands left in
the text, a left operand or a callee, are told apart from the others, which lead into an operand or
an argument behind the token of the node. How many of the others there are at most on a path down to
a leaf is the rise of the expression (`Expr.rise`, `Expr.isGreatest_rise`).
-/

namespace Precedence

/-- The way from a node to one right below it. -/
inductive Edge where
  | left
  | right
  /-- From a sign in front to its operand. -/
  | operand
  | callee
  | argument (index : Nat)
deriving DecidableEq, Repr

def Edge.isLeft : Edge → Bool
  | left | callee => true
  | right | operand | argument _ => false

/-- How many edges of a path are not left ones. -/
def rises (path : List Edge) : Nat := path.countP fun edge => !edge.isLeft

theorem rises_cons (edge : Edge) (path : List Edge) :
    rises (edge :: path) = rises path + if edge.isLeft then 0 else 1 := by
  rw [rises, List.countP_cons, ← rises]
  cases edge.isLeft <;> rfl

namespace Expr

/-- The node that an edge leads to. -/
def child? : Expr → Edge → Option Expr
  | unary _ operand _, .operand => some operand
  | binary _ left _ _, .left => some left
  | binary _ _ right _, .right => some right
  | juxtaposed _ left _, .left => some left
  | juxtaposed _ _ right, .right => some right
  | call callee _ _, .callee => some callee
  | call _ arguments _, .argument index => arguments[index]?
  | _, _ => none

/-- The node that a path leads to. -/
def descend : Expr → List Edge → Option Expr
  | e, [] => some e
  | e, edge :: path => (e.child? edge).bind (·.descend path)

/-- There is nothing below the node. -/
def IsLeaf (e : Expr) : Prop := ∀ edge, e.child? edge = none

mutual

/-- The greatest number of edges on a path to a leaf that are not left ones. -/
def rise : Expr → Nat
  | empty | number _ _ | identifier _ _ => 0
  | unary _ operand _ => operand.rise + 1
  | binary _ left right _ => max left.rise (right.rise + 1)
  | juxtaposed _ left right => max left.rise (right.rise + 1)
  | call callee arguments _ => max callee.rise (riseAll arguments)

/-- The same below a node of which these are the arguments. -/
def riseAll : List Expr → Nat
  | [] => 0
  | e :: rest => max (e.rise + 1) (riseAll rest)

end

variable {e c m : Expr} {es : List Expr} {edge : Edge} {path : List Edge} {n : Nat}

@[simp] theorem descend_nil : e.descend [] = some e := by cases e <;> rfl

theorem descend_cons : e.descend (edge :: path) = (e.child? edge).bind (·.descend path) := by
  cases e <;> rfl

theorem descend_of_child? (h : e.child? edge = some c) :
    e.descend (edge :: path) = c.descend path := by
  rw [descend_cons, h]
  rfl

theorem exists_child?_of_descend (h : e.descend (edge :: path) = some m) :
    ∃ c, e.child? edge = some c ∧ c.descend path = some m :=
  Option.bind_eq_some_iff.mp (descend_cons ▸ h)

theorem riseAll_le_iff : riseAll es ≤ n ↔ ∀ e ∈ es, e.rise < n := by
  induction es with
  | nil => simp [riseAll]
  | cons e es ih => rw [riseAll, Nat.max_le, ih, List.forall_mem_cons]; exact Iff.rfl

theorem exists_riseAll (h : es ≠ []) :
    ∃ (i : Nat) (c : Expr), es[i]? = some c ∧ riseAll es = c.rise + 1 := by
  induction es with
  | nil => exact absurd rfl h
  | cons e es ih =>
    rcases Nat.le_total (riseAll es) (e.rise + 1) with hle | hle
    · exact ⟨0, e, rfl, Nat.max_eq_left hle⟩
    · have hne : es ≠ [] := by
        rintro rfl
        exact Nat.not_succ_le_zero _ hle
      obtain ⟨i, c, hc, hrise⟩ := ih hne
      exact ⟨i + 1, c, hc, (Nat.max_eq_right hle).trans hrise⟩

/-- What an edge leads to rises as far as is left. -/
theorem rise_of_child? (h : e.child? edge = some c) :
    c.rise + (if edge.isLeft then 0 else 1) ≤ e.rise := by
  cases e with
  | empty | number | identifier => cases edge <;> cases h
  | unary _ operand _ =>
    cases edge <;> cases h
    exact Nat.le_refl _
  | binary _ left right _ | juxtaposed _ left right =>
    cases edge <;> cases h
    · exact Nat.le_max_left _ _
    · exact Nat.le_max_right _ _
  | call callee arguments _ =>
    cases edge with
    | callee =>
      cases h
      exact Nat.le_max_left _ _
    | argument i =>
      have hlt := riseAll_le_iff.mp (Nat.le_refl _) c (List.mem_of_getElem? h)
      exact Nat.le_trans hlt (Nat.le_max_right _ _)
    | _ => cases h

theorem rises_le_rise (h : e.descend path = some m) : rises path ≤ e.rise := by
  induction path generalizing e with
  | nil => exact Nat.zero_le _
  | cons edge path ih =>
    obtain ⟨c, hc, hpath⟩ := exists_child?_of_descend h
    rw [rises_cons]
    exact Nat.le_trans (Nat.add_le_add_right (ih hpath) _) (rise_of_child? hc)

/-- A path to a leaf rises so often. -/
def RisesTo (e : Expr) (n : Nat) : Prop :=
  ∃ path leaf, e.descend path = some leaf ∧ leaf.IsLeaf ∧ rises path = n

theorem RisesTo.of_isLeaf (h : e.IsLeaf) : e.RisesTo 0 := ⟨[], e, descend_nil, h, rfl⟩

theorem RisesTo.of_child? (hc : e.child? edge = some c) (h : c.RisesTo n) :
    e.RisesTo (n + if edge.isLeft then 0 else 1) := by
  obtain ⟨path, leaf, hpath, hleaf, rfl⟩ := h
  exact ⟨edge :: path, leaf, (descend_of_child? hc).trans hpath, hleaf, rises_cons _ _⟩

theorem risesTo_max {left right : Nat} (hl : e.RisesTo left) (hr : e.RisesTo right) :
    e.RisesTo (max left right) := by
  rcases Nat.le_total left right with h | h
  · rwa [Nat.max_eq_right h]
  · rwa [Nat.max_eq_left h]

theorem risesTo_rise (e : Expr) : e.RisesTo e.rise := by
  induction e using Expr.inductionOn with
  | empty | number | identifier => exact .of_isLeaf fun edge => by cases edge <;> rfl
  | unary operator operand position ih =>
    have hoperand : (unary operator operand position).child? .operand = some operand := rfl
    exact ih.of_child? hoperand
  | binary operator left right position ihl ihr =>
    have hleft : (binary operator left right position).child? .left = some left := rfl
    have hright : (binary operator left right position).child? .right = some right := rfl
    exact risesTo_max (ihl.of_child? hleft) (ihr.of_child? hright)
  | juxtaposed operator left right ihl ihr =>
    have hleft : (juxtaposed operator left right).child? .left = some left := rfl
    have hright : (juxtaposed operator left right).child? .right = some right := rfl
    exact risesTo_max (ihl.of_child? hleft) (ihr.of_child? hright)
  | call callee arguments position ihf ihs =>
    have hcallee : (call callee arguments position).child? .callee = some callee := rfl
    by_cases hne : arguments = []
    · subst hne
      have hrise : (call callee [] position).rise = callee.rise := Nat.max_zero _
      exact hrise ▸ ihf.of_child? hcallee
    · obtain ⟨i, a, ha, hrise⟩ := exists_riseAll hne
      have hargument : (call callee arguments position).child? (.argument i) = some a := ha
      have harguments := (ihs a (List.mem_of_getElem? ha)).of_child? hargument
      exact risesTo_max (ihf.of_child? hcallee) (hrise ▸ harguments)

/-- The rise is the greatest number of edges on a path to a leaf that are not left ones. -/
theorem isGreatest_rise (e : Expr) : IsGreatest {n | e.RisesTo n} e.rise :=
  ⟨risesTo_rise e, fun _ ⟨_, _, hpath, _, hn⟩ => hn ▸ rises_le_rise hpath⟩

end Expr

end Precedence

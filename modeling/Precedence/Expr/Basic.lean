import Precedence.Binary64.Basic
import Precedence.Operator

/-!
# Expressions

An expression is a number, a name, an operator with its operands, or a call; `empty` is what a
text without any token but its end stands for, and nothing else. Every node that comes from a
token of its own carries the place of that token: a binary node the place of its operator, a call
the place of its opening parenthesis. A juxtaposed pair, `2x` or `(a)(b)`, has no token of its
own and so no place. Parentheses that only group leave nothing behind.

Equality is taken by value of the numbers, so it differs from identity at the zeros and at what
is not a number (`Expr.equal`); everything else, places included, has to agree.
-/

namespace Precedence

inductive Expr where
  | empty
  | number (value : Binary64) (position : Position)
  | identifier (name : String) (position : Position)
  | unary (operator : Operator) (operand : Expr) (position : Position)
  | binary (operator : Operator) (left right : Expr) (position : Position)
  | juxtaposed (operator : Operator) (left right : Expr)
  | call (callee : Expr) (arguments : List Expr) (position : Position)
deriving Repr, Inhabited

namespace Expr

/-- Induction over an expression, with the arguments of a call taken as a list whose members
all have the property. -/
@[elab_as_elim]
theorem inductionOn {P : Expr → Prop} (e : Expr)
    (empty : P .empty)
    (number : ∀ value position, P (.number value position))
    (identifier : ∀ name position, P (.identifier name position))
    (unary : ∀ operator operand position, P operand → P (.unary operator operand position))
    (binary : ∀ operator left right position, P left → P right →
      P (.binary operator left right position))
    (juxtaposed : ∀ operator left right, P left → P right → P (.juxtaposed operator left right))
    (call : ∀ callee arguments position, P callee → (∀ a ∈ arguments, P a) →
      P (.call callee arguments position)) : P e :=
  Expr.rec (motive_1 := P) (motive_2 := fun es => ∀ a ∈ es, P a)
    empty number identifier
    (fun o x p => unary o x p)
    (fun o l r p => binary o l r p)
    (fun o l r => juxtaposed o l r)
    (fun f xs p => call f xs p)
    (fun _ h => absurd h List.not_mem_nil)
    (fun _ _ hx hxs a h => by
      rcases List.mem_cons.mp h with rfl | h
      · exact hx
      · exact hxs a h)
    e

/-- The place of the token that made the node, if it had one. -/
def position? : Expr → Option Position
  | empty => none
  | number _ position => some position
  | identifier _ position => some position
  | unary _ _ position => some position
  | binary _ _ _ position => some position
  | juxtaposed _ _ _ => none
  | call _ _ position => some position

def isEmpty : Expr → Bool
  | empty => true
  | _ => false

theorem isEmpty_iff {e : Expr} : e.isEmpty = true ↔ e = empty := by
  cases e <;> simp [isEmpty]

def isIdentifier : Expr → Bool
  | identifier _ _ => true
  | _ => false

mutual

def count : Expr → Nat
  | empty => 1
  | number _ _ => 1
  | identifier _ _ => 1
  | unary _ operand _ => 1 + operand.count
  | binary _ left right _ => 1 + left.count + right.count
  | juxtaposed _ left right => 1 + left.count + right.count
  | call callee arguments _ => 1 + callee.count + countAll arguments

def countAll : List Expr → Nat
  | [] => 0
  | e :: rest => e.count + countAll rest

end

theorem count_pos (e : Expr) : 0 < e.count := by
  cases e <;> simp only [count] <;> omega

mutual

/-- Equality by value of the numbers and by identity of all else. -/
def equal : Expr → Expr → Bool
  | empty, empty => true
  | number v p, number v' p' => v.equal v' && p = p'
  | identifier s p, identifier s' p' => s = s' && p = p'
  | unary o x p, unary o' x' p' => o = o' && x.equal x' && p = p'
  | binary o l r p, binary o' l' r' p' => o = o' && l.equal l' && r.equal r' && p = p'
  | juxtaposed o l r, juxtaposed o' l' r' => o = o' && l.equal l' && r.equal r'
  | call f xs p, call f' xs' p' => f.equal f' && equalAll xs xs' && p = p'
  | _, _ => false

def equalAll : List Expr → List Expr → Bool
  | [], [] => true
  | x :: xs, y :: ys => x.equal y && equalAll xs ys
  | _, _ => false

end

end Expr

end Precedence

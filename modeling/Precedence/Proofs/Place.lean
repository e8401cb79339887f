import Mathlib.Algebra.Group.Nat.Defs
import Mathlib.Tactic.WLOG
import Precedence.Position

/-!
# Places tell offsets apart

A text that is read from a place ends at another place, unless it is empty: line feeds change the
line, and a text without one changes the column. Both are counted in 32 bits, so this holds of
texts of fewer than `2 ^ 32` characters, and within such a text every offset has a place of its
own (`placeOf_inj`).
-/

namespace Precedence

namespace Position

variable {p : Position} {text : List Char}

theorem ofNat_eq_zero {n : Nat} (h : UInt32.ofNat n = 0) (hn : n < 2 ^ 32) : n = 0 := by
  have htoNat := congrArg UInt32.toNat h
  rwa [UInt32.toNat_ofNat_of_lt' hn] at htoNat

theorem line_afterAll (p : Position) (text : List Char) :
    (p.afterAll text).line = p.line + UInt32.ofNat (text.count '\n') := by
  induction text generalizing p with
  | nil => simp
  | cons c text ih =>
    rw [afterAll_cons, ih, List.count_cons]
    by_cases hc : c = '\n'
    · simp [after, hc, UInt32.ofNat_add, UInt32.add_assoc, UInt32.add_comm 1]
    · simp [after, hc]

/-- Reading a text comes back to where it began only if the text is empty. -/
theorem afterAll_eq_self (hlength : text.length < 2 ^ 32) (h : p.afterAll text = p) :
    text = [] := by
  have hline : p.line + UInt32.ofNat (text.count '\n') = p.line := by
    rw [← line_afterAll, h]
  have hcount : text.count '\n' = 0 :=
    ofNat_eq_zero (by simpa using hline) (Nat.lt_of_le_of_lt List.count_le_length hlength)
  have hcolumn : p.column + UInt32.ofNat text.length = p.column := by
    rw [afterAll_eq_shift p (List.count_eq_zero.mp hcount)] at h
    exact congrArg column h
  exact List.eq_nil_of_length_eq_zero (ofNat_eq_zero (by simpa using hcolumn) hlength)

end Position

/-- The place behind the first `i` characters of a text. -/
def placeOf (text : List Char) (i : Nat) : Position := Position.origin.afterAll (text.take i)

section Offsets

variable {text : List Char} {i j : Nat}

theorem placeOf_append (s t : List Char) :
    placeOf (s ++ t) s.length = Position.origin.afterAll s := by
  rw [placeOf, List.take_left]

theorem placeOf_add (text : List Char) (i n : Nat) :
    placeOf text (i + n) = (placeOf text i).afterAll ((text.drop i).take n) := by
  rw [placeOf, List.take_add, Position.afterAll_append, placeOf]

/-- Different offsets of a text have different places. -/
theorem placeOf_inj (hlength : text.length < 2 ^ 32) (hi : i ≤ text.length) (hj : j ≤ text.length)
    (h : placeOf text i = placeOf text j) : i = j := by
  wlog hle : i ≤ j generalizing i j
  · exact (this hj hi h.symm (Nat.le_of_not_le hle)).symm
  obtain ⟨n, rfl⟩ := Nat.exists_eq_add_of_le hle
  rw [placeOf_add] at h
  have hn : ((text.drop i).take n).length = n := by
    rw [List.length_take, List.length_drop]
    omega
  have hempty := Position.afterAll_eq_self (by omega) h.symm
  rw [hempty] at hn
  rw [← hn]
  rfl

end Offsets

end Precedence

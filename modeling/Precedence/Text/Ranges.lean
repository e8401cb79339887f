/-!
# Sets of characters as ascending ranges

A character class of a standard is kept as a list of closed ranges of code points in ascending
order. The order is not decoration: the search stops at the first range that begins beyond the
number sought, so an ASCII character is settled by the first few entries of a table however long
it is. `inRanges_iff` says that on an ascending table the search answers plain membership.
-/

namespace Precedence

/-- Is `n` in one of the ranges? The table is taken to be ascending. -/
def inRanges : List (Nat × Nat) → Nat → Bool
  | [], _ => false
  | (low, high) :: rest, n =>
      if n < low then false
      else if n ≤ high then true
      else inRanges rest n

/-- Every range is in order and ends before the next begins. -/
def ascending : List (Nat × Nat) → Bool
  | [] => true
  | [(low, high)] => low ≤ high
  | (low, high) :: (low', high') :: rest =>
      decide (low ≤ high) && decide (high < low') && ascending ((low', high') :: rest)

theorem ascending_tail {r : Nat × Nat} {rest : List (Nat × Nat)}
    (h : ascending (r :: rest) = true) : ascending rest = true := by
  match rest with
  | [] => rfl
  | (_, _) :: _ => simp only [ascending, Bool.and_eq_true] at h; exact h.2

/-- In an ascending table every range begins at or after the first. -/
theorem ascending_low_le {r : Nat × Nat} {rest : List (Nat × Nat)}
    (h : ascending (r :: rest) = true) : ∀ s ∈ rest, r.2 < s.1 := by
  induction rest generalizing r with
  | nil => simp
  | cons s rest ih =>
    obtain ⟨low, high⟩ := r
    obtain ⟨low', high'⟩ := s
    simp only [ascending, Bool.and_eq_true, decide_eq_true_eq] at h
    have hs : low' ≤ high' := by
      have := h.2
      match rest with
      | [] => simpa [ascending] using this
      | (_, _) :: _ => simp only [ascending, Bool.and_eq_true, decide_eq_true_eq] at this; exact this.1.1
    intro t ht
    rcases List.mem_cons.mp ht with rfl | ht
    · exact h.1.2
    · have := ih h.2 t ht
      simp only at this ⊢
      omega

/-- On an ascending table the search is membership. -/
theorem inRanges_iff {table : List (Nat × Nat)} {n : Nat} (h : ascending table = true) :
    inRanges table n = true ↔ ∃ r ∈ table, r.1 ≤ n ∧ n ≤ r.2 := by
  induction table with
  | nil => simp [inRanges]
  | cons r rest ih =>
    obtain ⟨low, high⟩ := r
    have later := ascending_low_le h
    simp only [inRanges, List.mem_cons]
    split
    · rename_i hlt
      have hle : low ≤ high := by
        match rest with
        | [] => simpa [ascending] using h
        | (_, _) :: _ => simp only [ascending, Bool.and_eq_true, decide_eq_true_eq] at h; exact h.1.1
      constructor
      · simp
      · rintro ⟨s, rfl | hs, h1, h2⟩
        · simp only at h1; omega
        · have := later s hs; simp only at this; omega
    · rename_i hge
      split
      · rename_i hhi
        exact ⟨fun _ => ⟨(low, high), Or.inl rfl, by simp only; omega, hhi⟩, fun _ => rfl⟩
      · rename_i hhi
        rw [ih (ascending_tail h)]
        constructor
        · rintro ⟨s, hs, hn⟩; exact ⟨s, Or.inr hs, hn⟩
        · rintro ⟨s, rfl | hs, h1, h2⟩
          · exact absurd h2 hhi
          · exact ⟨s, hs, h1, h2⟩

end Precedence

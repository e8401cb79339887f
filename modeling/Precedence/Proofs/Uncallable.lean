import Precedence.Proofs.Joint
import Precedence.Proofs.TextFaults
import Precedence.Proofs.Uncommented

/-!
# What a text can call

Only a name can be called. A parser of tokens refuses everything else, but a text hardly ever comes
to that: what is no name ends with a number or with a closing parenthesis
(`Derives.exists_endsOperand`), and between such a lexeme and an opening parenthesis scanning puts a
multiplication sign. Nothing but a comment keeps the sign away, so a text in which something else
than a name is called has a comment right before the parenthesis (`parseWithin_notCallable`).
-/

namespace Precedence

/-- At the place an opening parenthesis stands, and a comment keeps it apart from the lexeme before
it, which is a number or a closing parenthesis. -/
def OpensBehindComment (source : String) (position : Position) : Prop :=
  ∃ segments, Divides source.toList segments ∧ ∃ front s next back,
    segments = front ++ s :: next :: back ∧
      (s.kind = .number ∨ s.kind = .closeParen) ∧ next.kind = .openParen ∧ '#' ∈ next.gap ∧
      position = placeOf source.toList (written (front ++ [s]) ++ next.gap).length

variable {source : String} {callee : String} {position : Position} {maxDepth : Nat}
  {ts : List Token} {t u : Token} {f : Expr} {fault : Fault}

/-! ## Where the callee ends -/

/-- What could stand before arguments and is no name ends with a number or with a parenthesis. -/
theorem Derives.exists_endsOperand (hf : Derives .atom ts f) (hname : f.isIdentifier = false) :
    ∃ v ∈ ts.getLast?, v.EndsOperand := by
  cases hf with
  | tighter hnext => cases hnext
  | operation hk => cases hk
  | number hk => exact ⟨_, rfl, .inl hk⟩
  | identifier => cases hname
  | group _ _ hu =>
    exact exists_getLast_cons (exists_getLast_append ⟨_, rfl, .inr hu⟩)
  | emptyCall _ _ _ hu =>
    exact exists_getLast_append (exists_getLast_cons ⟨_, rfl, .inr hu⟩)
  | call _ _ _ _ hu =>
    exact exists_getLast_append (exists_getLast_cons (exists_getLast_append ⟨_, rfl, .inr hu⟩))

mutual

/-- Whatever an expression is part of, what is refused as a callee stands right before the
parenthesis. -/
theorem Stuck.exists_endsOperand : ∀ {power ts u fault}, Stuck power ts u fault →
    ∀ callee, fault.cause = .notCallable callee → ∃ v ∈ ts.getLast?, v.EndsOperand
  | _, _, _, _, .notCallable hf hname _ => fun _ _ => hf.exists_endsOperand hname
  | _, _, _, _, .noRule _ | _, _, _, _, .badNumber .. | _, _, _, _, .ended _
  | _, _, _, _, .openGroup .. => nofun
  | _, _, _, _, .signed _ h | _, _, _, _, .group _ h => fun callee hcause =>
      exists_getLast_cons (h.exists_endsOperand callee hcause)
  | _, _, _, _, .operand _ _ _ h => fun callee hcause =>
      exists_getLast_append (exists_getLast_cons (h.exists_endsOperand callee hcause))
  | _, _, _, _, .call _ _ _ _ h => fun callee hcause =>
      exists_getLast_append (exists_getLast_cons (h.exists_endsOperand callee hcause))

theorem StuckArguments.exists_endsOperand : ∀ {ts u fault}, StuckArguments ts u fault →
    ∀ callee, fault.cause = .notCallable callee → ∃ v ∈ ts.getLast?, v.EndsOperand
  | _, _, _, .delimiter _ | _, _, _, .unclosed .. | _, _, _, .malformed .. => nofun
  | _, _, _, .argument _ h => h.exists_endsOperand
  | _, _, _, .cons _ _ h => fun callee hcause =>
      exists_getLast_append (exists_getLast_cons (h.exists_endsOperand callee hcause))

end

theorem Blocked.exists_endsOperand (h : Blocked ts u fault)
    (hcause : fault.cause = .notCallable callee) : ∃ v ∈ ts.getLast?, v.EndsOperand := by
  cases h with
  | stuck h => exact h.exists_endsOperand callee hcause
  | unused => cases hcause

/-! ## What keeps the sign away -/

/-- In the tokens of a text, an operand is followed at once by an opening parenthesis only if a
comment stands between the two. -/
theorem opensBehindComment_of_tokens {front back : List Token}
    (htokens : tokensOf (scan source) = front ++ t :: u :: back) (ht : t.EndsOperand)
    (hu : u.kind = .openParen) : OpensBehindComment source u.start := by
  obtain ⟨segments, hdivides⟩ := exists_divides source.toList
  have hkind := hdivides.kind_ne_implicitStar
  have hstar : t.kind ≠ .implicitStar := by rcases ht with ht | ht <;> rw [ht] <;> nofun
  rw [tokensOf_scan_of_divides hdivides] at htokens
  obtain ⟨init, s, rest, rfl, -, rfl, hback⟩ := exists_segment_of_dividedTokens hkind htokens hstar
  cases rest with
  | nil => cases hback
  | cons next rest =>
    -- The two tokens are next to each other, so there is no sign in front of the second.
    have hfirst : dividedTokens s.kind _ (next :: rest) = [] ++ u :: back := hback.symm
    obtain ⟨hnone, rfl⟩ := eq_sign_of_dividedTokens (hkind next (by simp)) hfirst nofun
      (by rw [hu]; nofun)
    have hs : s.kind = .number ∨ s.kind = .closeParen := ht
    have hnext : next.kind = .openParen := hu
    have hmultiplies : s.kind.multiplies next.kind = true := by
      rcases hs with hs | hs <;> rw [hs, hnext] <;> rfl
    obtain ⟨behind, hgap⟩ := hdivides.exists_isGap next (by simp)
    refine ⟨_, hdivides, init, s, next, rest, rfl, hs, hnext, ?_, ?_⟩
    · by_contra hplain
      rw [Segment.sign, isJoined_eq hgap, hmultiplies, decide_eq_true hplain] at hnone
      cases hnone
    · have hinit : written (init ++ [s]) = written init ++ s.text := by simp [Segment.text]
      have hsource : source.toList =
          (written (init ++ [s]) ++ next.gap) ++ (next.word ++ written rest) := by
        rw [hdivides.written_eq]
        simp
      rw [hsource, placeOf_append, hinit, Position.afterAll_append _ _ next.gap]
      rfl

/-- A text in which something else than a name is called has a comment between the lexeme before
the parenthesis, a number or a closing parenthesis, and the parenthesis. So a text without comments
is never blamed for that. -/
theorem parseWithin_notCallable
    (h : parseWithin maxDepth source = .error ⟨.notCallable callee, position⟩) :
    OpensBehindComment source position ∧ '#' ∈ source.toList := by
  obtain ⟨hfaults, hparse⟩ : faultsOf (scan source) = [] ∧
      parseTokens .arithmetic maxDepth (tokensOf (scan source)) =
        .error ⟨.notCallable callee, position⟩ := by
    rcases cause_of_parseWithin h with ⟨-, -, _, hcause | hcause⟩ | ⟨hfaults, -⟩
    · cases hcause
    · cases hcause
    · rw [parseWithin, tokenize, hfaults] at h
      exact ⟨hfaults, h⟩
  have herror : ∀ t ∈ tokensOf (scan source), t.kind ≠ .error :=
    kind_ne_error_of_faultsOf_eq_nil hfaults
  obtain ⟨ts, u, hrow, hblocked⟩ := exists_blocked_of_parseTokens herror
    (fun limit hcause => by cases hcause) hparse
  rw [tokens_ofList_scan] at hrow
  obtain ⟨back, hback⟩ := hrow
  obtain ⟨v, hv, hends⟩ := hblocked.exists_endsOperand rfl
  obtain ⟨front, rfl⟩ := List.getLast?_eq_some_iff.mp hv
  have htokens : tokensOf (scan source) = front ++ v :: u :: back := by simp [← hback]
  have hopens : OpensBehindComment source u.start :=
    opensBehindComment_of_tokens htokens hends hblocked.names
  have hposition : position = u.start := hblocked.position_eq
  refine ⟨hposition ▸ hopens, ?_⟩
  obtain ⟨segments, hdivides, init, s, next, rest, rfl, -, -, hcomment, -⟩ := hopens
  rw [hdivides.written_eq]
  simp [hcomment]

set_option maxRecDepth 1000 in
/-- The two groups are not multiplied, and the first is no name. -/
theorem parseWithin_group_comment_group :
    parseWithin 3 "(-x)#\n(y)" = .error ⟨.notCallable "(- x)", ⟨2, 1⟩⟩ ∧
      OpensBehindComment "(-x)#\n(y)" ⟨2, 1⟩ ∧ '#' ∈ "(-x)#\n(y)".toList := by
  have h : parseWithin 3 "(-x)#\n(y)" = .error ⟨.notCallable "(- x)", ⟨2, 1⟩⟩ := by cbv
  exact ⟨h, parseWithin_notCallable h⟩

end Precedence

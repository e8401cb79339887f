import Precedence.Proofs.Diagnostics

/-!
# Every stray character has its fault

Scanning reports a character that begins nothing twice: as a fault and as the token that holds the
character. The two go in step (`lockstep_scan`): there is one fault for each such token, in the same
order and at the same place, and it says whether the character is a point right behind a number or
something that is simply not known (`Fault.Explains`). The scanner knows it by comparing places;
here it is said of the offset of the character and of the number that ends there.

So a parse of the text and a parse of its tokens can only differ in how they report the first stray
character. Neither looks at the order of the tokens before that, nor at how deep they nest.
-/

namespace Precedence

variable {source : String} {i : Nat} {c : Char} {number : String} {t : Token} {fault : Fault}
  {before behind : List Piece} {text word : List Char}

/-- The token holds the character at the offset, and the fault stands there and says what is wrong
with the character. -/
structure Fault.Explains (source : String) (i : Nat) (c : Char) (t : Token) (fault : Fault) :
    Prop where
  character : source.toList[i]? = some c
  text : t.text = String.singleton c
  start : t.start = placeOf source.toList i
  position : fault.position = t.start
  /-- A point right behind a number was meant to go on with it. -/
  malformed : ∀ number, fault.cause = .malformedNumber (number ++ ".") ↔
    c = '.' ∧ NumberBefore source i number
  /-- Everything else is not known. -/
  unrecognised : fault.cause = .unrecognisedToken t.text ↔
    ¬ (c = '.' ∧ ∃ number, NumberBefore source i number)

/-! ## What stands right before an offset -/

theorem eq_textOf_of_cut (hcut : cut text = before ++ behind) :
    text = textOf before ++ textOf behind := by
  rw [← textOf_append, ← hcut, textOf_cut]

theorem eq_of_isPrefix_cut {ps qs : List Piece} (hps : ps <+: qs) (hqs : qs <+: cut text)
    (h : (textOf ps).length = (textOf qs).length) : ps = qs := by
  obtain ⟨more, rfl⟩ := hps
  have hnone : more = [] := by
    refine List.eq_nil_iff_forall_not_mem.mpr fun piece hpiece => ?_
    rw [textOf_append, List.length_append, Nat.left_eq_add] at h
    have hempty := List.eq_nil_of_length_eq_zero h
    exact text_ne_nil_of_mem_cut (hqs.subset (List.mem_append_right _ hpiece))
      (List.flatMap_eq_nil_iff.mp hempty piece hpiece)
  rw [hnone, List.append_nil]

/-- The first pieces of a text are known by how many characters they fill. -/
theorem eq_of_length_textOf {others back : List Piece} (hcut : cut text = before ++ behind)
    (hcut' : cut text = others ++ back)
    (h : (textOf before).length = (textOf others).length) : before = others := by
  have hps : before <+: cut text := ⟨behind, hcut.symm⟩
  have hqs : others <+: cut text := ⟨back, hcut'.symm⟩
  rcases Nat.le_total before.length others.length with hle | hle
  · exact eq_of_isPrefix_cut (List.prefix_of_prefix_length_le hps hqs hle) hqs h
  · exact (eq_of_isPrefix_cut (List.prefix_of_prefix_length_le hqs hps hle) hps h.symm).symm

/-- A number ends right before an offset exactly if it is the last piece before it. -/
theorem numberBefore_iff (hlength : source.toList.length < 2 ^ 32)
    (hcut : cut source.toList = before ++ behind) :
    NumberBefore source (textOf before).length number ↔
      before.getLast? = some (.lexeme .number number.toList) := by
  have hle : ∀ {ps qs : List Piece}, cut source.toList = ps ++ qs →
      (textOf ps).length ≤ source.toList.length := fun h => by
    rw [eq_textOf_of_cut h, List.length_append]
    exact Nat.le_add_right _ _
  constructor
  · rintro ⟨-, -, t, ht, hk, rfl, hstop⟩
    obtain ⟨front, word, back, hcut', htext, hplace⟩ := exists_cut_of_number ht hk
    have hsame : placeOf source.toList (textOf before).length =
        placeOf source.toList (textOf (front ++ [.lexeme .number word])).length := by
      rw [← hstop, hplace, eq_textOf_of_cut hcut', placeOf_append]
    have hoffset := placeOf_inj hlength (hle hcut) (hle hcut') hsame
    rw [eq_of_length_textOf hcut hcut' hoffset, List.getLast?_concat, htext, String.toList_ofList]
  · intro hlast
    obtain ⟨front, rfl⟩ := List.getLast?_eq_some_iff.mp hlast
    have hnumber := numberBefore_of_cut (hcut.trans (List.append_assoc ..))
    rw [String.ofList_toList] at hnumber
    simpa [Piece.text] using hnumber

/-! ## Fault by fault -/

theorem strayCause_eq_malformed {last : Option Piece} :
    Piece.strayCause last c = .malformedNumber (number ++ ".") ↔
      c = '.' ∧ last = some (.lexeme .number number.toList) := by
  unfold Piece.strayCause
  split
  · rename_i word
    have htext : String.ofList word ++ "." = number ++ "." ↔ word = number.toList := by
      simp [← String.toList_inj]
    by_cases hpoint : c = '.'
    · simp [hpoint, htext]
    · simp [hpoint]
  · rename_i hlast
    refine ⟨nofun, fun h => absurd h.2 (hlast _)⟩

theorem strayCause_eq_unrecognised {last : Option Piece} :
    Piece.strayCause last c = .unrecognisedToken (String.singleton c) ↔
      ¬ (c = '.' ∧ ∃ number : String, last = some (.lexeme .number number.toList)) := by
  unfold Piece.strayCause
  split
  · rename_i word
    have hnumber : ∃ number : String, word = number.toList :=
      ⟨.ofList word, String.toList_ofList.symm⟩
    by_cases hpoint : c = '.'
    · simp [hpoint, hnumber]
    · simp [hpoint]
  · rename_i hlast
    exact iff_of_true rfl fun ⟨_, number, h⟩ => hlast _ h

/-- Of a stray character the piece before it tells what is wrong. -/
theorem explains_stray (hlength : source.toList.length < 2 ^ 32)
    (hcut : cut source.toList = before ++ .stray c :: behind) :
    let p := Position.origin.afterAll (textOf before)
    Fault.Explains source (textOf before).length c ⟨.error, String.singleton c, ⟨p, p.after c⟩⟩
      ⟨Piece.strayCause before.getLast? c, p⟩ := by
  have hnumber := fun number => @numberBefore_iff source number _ _ hlength hcut
  have hsource := eq_textOf_of_cut hcut
  refine ⟨?_, rfl, ?_, rfl, fun number => ?_, ?_⟩
  · rw [hsource, List.getElem?_append_right (Nat.le_refl _), Nat.sub_self]
    rfl
  · rw [hsource, placeOf_append]
    rfl
  · rw [hnumber]
    exact strayCause_eq_malformed
  · simp only [hnumber]
    exact strayCause_eq_unrecognised

/-- A fault explains its character in one of two ways. -/
theorem Fault.Explains.fault_cases (h : Fault.Explains source i c t fault) :
    fault = ⟨.unrecognisedToken t.text, t.start⟩ ∨
      ∃ number, fault.cause = .malformedNumber (number ++ ".") := by
  by_cases hnumber : c = '.' ∧ ∃ number, NumberBefore source i number
  · obtain ⟨hpoint, number, hnumber⟩ := hnumber
    exact .inr ⟨number, (h.malformed number).mpr ⟨hpoint, hnumber⟩⟩
  · obtain ⟨cause, position⟩ := fault
    obtain rfl : position = t.start := h.position
    obtain rfl : cause = .unrecognisedToken t.text := h.unrecognised.mpr hnumber
    exact .inl rfl

/-- From any piece on, each stray character has its fault. -/
theorem forall₂_explains (hlength : source.toList.length < 2 ^ 32)
    (hcut : cut source.toList = before ++ behind) :
    let p := Position.origin.afterAll (textOf before)
    List.Forall₂ (fun t fault => ∃ i c, Fault.Explains source i c t fault)
      ((tokensFrom p behind).filter (·.kind = .error)) (faultsFrom before.getLast? p behind) := by
  dsimp only
  induction behind generalizing before with
  | nil => exact .nil
  | cons piece behind ih =>
    have hrest := ih (hcut.trans (List.append_cons ..))
    rw [textOf_append, Position.afterAll_append, textOf_cons, textOf_nil, List.append_nil,
      List.getLast?_concat] at hrest
    rw [tokensFrom, faultsFrom, List.filter_append]
    refine List.rel_append ?_ hrest
    cases piece with
    | gap => exact .nil
    | stray c => exact .cons ⟨_, c, explains_stray hlength hcut⟩ .nil
    | lexeme kind word =>
      have hkind := (kind_of_lexeme (mem_cut hcut)).2.2
      have hnone : ((Piece.lexeme kind word).tokens
          (Position.origin.afterAll (textOf before)) behind).filter (·.kind = .error) = [] := by
        rw [Piece.tokens, List.filter_cons_of_neg (by simpa using hkind)]
        split <;> rfl
      rw [hnone]
      exact .nil

/-! ## Two ways to parse a text -/

/-- The faults of a text go in step with its stray characters, and a parse of the text with a parse
of its tokens. -/
structure Lockstep (source : String) : Prop where
  /-- Each stray character has one fault, in order. -/
  faults : List.Forall₂ (fun t fault => ∃ i c, Fault.Explains source i c t fault)
    ((tokensOf (scan source)).filter (·.kind = .error)) (faultsOf (scan source))
  /-- Without stray characters the text and its tokens are parsed alike. -/
  agree : (∀ t ∈ tokensOf (scan source), t.kind ≠ .error) → ∀ maxDepth,
    parseTokens .arithmetic maxDepth (tokensOf (scan source)) = parseWithin maxDepth source
  /-- The first stray character stops both parses, whatever else is wrong: it is explained where
  there is a text, and otherwise it is shown. -/
  stop : ∀ t, (tokensOf (scan source)).find? (·.kind = .error) = some t →
    ∃ fault rest, faultsOf (scan source) = fault :: rest ∧ fault.position = t.start ∧
      (fault = ⟨.unrecognisedToken t.text, t.start⟩ ∨
        ∃ number, fault.cause = .malformedNumber (number ++ ".")) ∧
      ∀ maxDepth, parseWithin maxDepth source = .error fault ∧
        parseTokens .arithmetic maxDepth (tokensOf (scan source)) =
          .error ⟨.unrecognisedToken t.text, t.start⟩

/-- Scanning gives each stray character its fault, so that a text and its tokens are parsed alike up
to the first of them. -/
theorem lockstep_scan (hlength : source.length ≤ 2 ^ 32 - 2) : Lockstep source := by
  have hlength : source.toList.length < 2 ^ 32 := by
    rw [String.length_toList]
    omega
  have hfaults : List.Forall₂ (fun t fault => ∃ i c, Fault.Explains source i c t fault)
      ((tokensOf (scan source)).filter (·.kind = .error)) (faultsOf (scan source)) := by
    rw [tokensOf_scan, faultsOf_scan hlength]
    exact forall₂_explains hlength (List.nil_append _).symm
  refine ⟨hfaults, fun herror maxDepth => ?_, fun t ht => ?_⟩
  · have hnone : faultsOf (scan source) = [] := faultsOf_eq_nil herror
    rw [parseWithin, tokenize, hnone]
    rfl
  · obtain ⟨rest, hrest⟩ := List.head?_eq_some_iff.mp ((List.head?_filter ..).trans ht)
    rw [hrest] at hfaults
    cases hscan : faultsOf (scan source) with
    | nil => rw [hscan] at hfaults; cases hfaults
    | cons fault others =>
      rw [hscan] at hfaults
      cases hfaults with
      | cons hfirst _ =>
        obtain ⟨i, c, hexplains⟩ := hfirst
        refine ⟨fault, others, rfl, hexplains.position, hexplains.fault_cases, fun maxDepth => ⟨?_, ?_⟩⟩
        · rw [parseWithin, tokenize, hscan]
          rfl
        · rw [parseTokens, runTokens, ht]

/-- In `7.5. .)` the second point touches a number and the third does not. -/
theorem lockstep_points :
    "7.5. .)".length ≤ 2 ^ 32 - 2 ∧ Lockstep "7.5. .)" ∧
      faultsOf (scan "7.5. .)") =
        [⟨.malformedNumber "7.5.", ⟨1, 4⟩⟩, ⟨.unrecognisedToken ".", ⟨1, 6⟩⟩] := by
  have hlength : "7.5. .)".length ≤ 2 ^ 32 - 2 := by decide
  exact ⟨hlength, lockstep_scan hlength, by cbv⟩

end Precedence

import Precedence.Proofs.DividedTokens

/-!
# The faults of a division

What is found wrong by scanning a text follows from its division, as the tokens do: every stray
character gives a fault, in order (`faultsOf_scan_of_divides`). What the fault says depends on the
lexeme before only if there is no gap between the two, since a gap keeps a point off the number it
was meant to go on with.
-/

namespace Precedence

namespace Segment

/-- The lexeme as a piece of the text. -/
def piece (s : Segment) : Piece := .lexeme s.kind s.word

/-- The faults of the lexeme behind a piece, if the segment begins at the place. -/
def faults (before : Option Piece) (p : Position) (s : Segment) : List Fault :=
  if s.kind = .error then
    s.word.map fun c =>
      ⟨Piece.strayCause (if s.gap = [] then before else none) c, p.afterAll s.gap⟩
  else []

end Segment

/-- The faults of segments that begin at a place, behind a piece. -/
def dividedFaults (before : Option Piece) (p : Position) : List Segment → List Fault
  | [] => []
  | s :: rest => s.faults before p ++ dividedFaults (some s.piece) (p.afterAll s.text) rest

/-- The last of the lexemes as a piece, if there is one, and otherwise the piece before. -/
def lastPiece (before : Option Piece) : List Segment → Option Piece
  | [] => before
  | s :: rest => lastPiece (some s.piece) rest

variable {c : Char} {gap rest behind text word : List Char} {kind : TokenKind}
  {before before' : Option Piece} {p : Position} {segments : List Segment}

theorem dividedFaults_append (before : Option Piece) (p : Position) (front back : List Segment) :
    dividedFaults before p (front ++ back) = dividedFaults before p front ++
      dividedFaults (lastPiece before front) (p.afterAll (written front)) back := by
  induction front generalizing before p with
  | nil => rfl
  | cons s front ih =>
    have hwritten : written (s :: front) = s.text ++ written front := rfl
    rw [List.cons_append, dividedFaults, ih, dividedFaults, lastPiece, hwritten,
      Position.afterAll_append, List.append_assoc]

/-! ## What a piece has its say in -/

/-- Only a number before has its say in what is wrong with a character. -/
theorem faultsFrom_congr (h : ∀ c, Piece.strayCause before c = Piece.strayCause before' c)
    (p : Position) (pieces : List Piece) :
    faultsFrom before p pieces = faultsFrom before' p pieces := by
  cases pieces with
  | nil => rfl
  | cons piece pieces =>
    have hfaults : piece.faults before p = piece.faults before' p := by
      cases piece with
      | stray c => simp only [Piece.faults, h c]
      | gap | lexeme => rfl
    rw [faultsFrom, faultsFrom, hfaults]

theorem faultsFrom_white (pieces : List Piece) (p : Position) (behind : List Piece) :
    faultsFrom ((pieces.takeWhile Piece.isWhite).getLast?.or none) p behind =
      faultsFrom none p behind := by
  refine faultsFrom_congr (fun c => ?_) p behind
  cases hlast : (pieces.takeWhile Piece.isWhite).getLast? with
  | none => rfl
  | some piece =>
    have hwhite := List.all_eq_true.mp List.all_takeWhile _ (List.mem_of_getLast? hlast)
    cases piece with
    | gap => rfl
    | lexeme | stray => cases hwhite

theorem faultsFrom_space (hc : isSpace c = true) :
    faultsFrom before p (cut (c :: rest)) = faultsFrom none (p.after c) (cut rest) := by
  -- A piece may hold more white space than the first character, so the white pieces are passed over
  -- at once on both sides, and the last of them is the piece before.
  have hfirst : (firstPiece c rest).isWhite = true := (isWhite_firstPiece c rest).trans hc
  have hbefore : ((cut (c :: rest)).takeWhile Piece.isWhite).getLast?.or before =
      ((cut (c :: rest)).takeWhile Piece.isWhite).getLast?.or none := by
    rw [cut_cons, List.takeWhile_cons_of_pos hfirst, getLast?_cons_or, getLast?_cons_or]
  rw [← faultsFrom_afterWhite before p, ← faultsFrom_afterWhite none (p.after c), hbefore,
    faultsFrom_white, faultsFrom_white, dropWhile_cut, dropWhile_cut, afterWhite, afterWhite,
    textOf_takeWhile_cut, textOf_takeWhile_cut, List.dropWhile_cons_of_pos hc,
    List.takeWhile_cons_of_pos hc, Position.afterAll_cons]

/-- Behind a gap nothing has its say. -/
theorem faultsFrom_gap (h : IsGap gap behind) :
    faultsFrom before p (cut (gap ++ behind)) =
      faultsFrom (if gap = [] then before else none) (p.afterAll gap) (cut behind) := by
  induction h generalizing before p with
  | nil => rfl
  | space hc _ ih =>
    rw [List.cons_append, faultsFrom_space hc, ih, ite_self, if_neg (List.cons_ne_nil _ _),
      Position.afterAll_cons]
  | @comment body gap behind hbody hend _ ih =>
    have hcause : ∀ c, Piece.strayCause (some (.gap ('#' :: body))) c = Piece.strayCause none c :=
      fun _ => rfl
    have hnone : Piece.faults before p (.gap ('#' :: body)) = [] := rfl
    rw [List.cons_append, List.append_assoc, cut_comment hbody hend, faultsFrom, hnone,
      List.nil_append, Piece.text, faultsFrom_congr hcause, ih, ite_self,
      if_neg (List.cons_ne_nil _ _), ← List.cons_append, Position.afterAll_append]

/-! ## Divisions -/

theorem faultsFrom_lexeme (h : IsLexeme kind word rest) (p : Position) :
    faultsFrom before p (cut (word ++ rest)) =
      (Segment.mk [] kind word).faults before p ++
        faultsFrom (some (.lexeme kind word)) (p.afterAll word) (cut rest) := by
  cases h with
  | word hword hlongest =>
    have hkind : kind ≠ .error := by
      rintro rfl
      exact hword
    rw [cut_word hword hlongest, Segment.faults, if_neg hkind]
    rfl
  | @stray c _ hspace hcomment hnone =>
    have hcause : ∀ d, Piece.strayCause (some (.stray c)) d =
        Piece.strayCause (some (.lexeme .error [c])) d := fun _ => rfl
    rw [List.singleton_append, cut_stray (ruleFor?_of_stray hspace hcomment hnone), faultsFrom,
      faultsFrom_congr hcause]
    rfl

/-- The faults of a text are those of its division. -/
theorem faultsFrom_of_divides (h : Divides text segments) (before : Option Piece) (p : Position) :
    faultsFrom before p (cut text) = dividedFaults before p segments := by
  induction h generalizing before p with
  | @last gap hgap =>
    have hfaults := @faultsFrom_gap _ _ before p hgap
    rw [List.append_nil, cut_nil] at hfaults
    rw [hfaults]
    rfl
  | @segment s text rest segments htext hgap hword _ ih =>
    have hfaults : (Segment.mk [] s.kind s.word).faults (if s.gap = [] then before else none)
        (p.afterAll s.gap) = s.faults before p := rfl
    rw [htext, faultsFrom_gap hgap, faultsFrom_lexeme hword, hfaults, ih, dividedFaults,
      Segment.text, Position.afterAll_append]
    rfl

/-- In a text that is not too long scanning finds the faults of its division. -/
theorem faultsOf_scan_of_divides {source : String} (hlength : source.toList.length < 2 ^ 32)
    (h : Divides source.toList segments) :
    faultsOf (scan source) = dividedFaults none .origin segments := by
  rw [faultsOf_scan hlength, faultsFrom_of_divides h]

end Precedence

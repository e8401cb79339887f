import Precedence.Proofs.Lexeme
import Precedence.Proofs.Place

/-!
# A text in pieces

What scanning makes of a text, said without a cursor and without places. A text is cut into pieces
from the front (`cut`): white space and comments, lexemes, and characters that begin nothing. The
pieces fill the text without a gap. The tokens and the faults follow from the pieces and from the
place where the first of them begins (`tokensFrom`, `faultsFrom`), and they are those that are
found by scanning (`tokensOf_scan`, `faultsOf_scan`).

A fault asks whether a point touches a number. The scanner knows it from the places of the two,
which tell offsets apart only in texts that are not too long; the pieces know it by themselves.
-/

namespace Precedence

/-- A piece of a text. -/
inductive Piece where
  /-- White space or a comment. -/
  | gap (text : List Char)
  | lexeme (kind : TokenKind) (text : List Char)
  /-- A character that begins nothing. -/
  | stray (c : Char)
deriving DecidableEq, Repr

namespace Piece

def text : Piece → List Char
  | gap text => text
  | lexeme _ text => text
  | stray c => [c]

def isWhite : Piece → Bool
  | gap text => text.all isSpace
  | _ => false

end Piece

def textOf (pieces : List Piece) : List Char := pieces.flatMap Piece.text

@[simp] theorem textOf_nil : textOf [] = [] := rfl

@[simp] theorem textOf_cons (piece : Piece) (pieces : List Piece) :
    textOf (piece :: pieces) = piece.text ++ textOf pieces := rfl

@[simp] theorem textOf_append (ps qs : List Piece) : textOf (ps ++ qs) = textOf ps ++ textOf qs :=
  List.flatMap_append

/-- The piece that a text begins with. -/
def firstPiece (c : Char) (rest : List Char) : Piece :=
  match ruleFor? (c :: rest) with
  | some ⟨_, .newline⟩ => .gap [c]
  | some ⟨pattern, .ignore⟩ => .gap ((c :: rest).take (pattern (c :: rest)))
  | some ⟨pattern, .emit kind⟩ => .lexeme kind ((c :: rest).take (pattern (c :: rest)))
  | none => .stray c

variable {c : Char} {rest text : List Char} {kind : TokenKind}

/-- The first piece is a beginning of the text that is not empty. -/
theorem exists_firstPiece_text (c : Char) (rest : List Char) :
    ∃ n, 0 < n ∧ (firstPiece c rest).text = (c :: rest).take n := by
  unfold firstPiece
  split
  · exact ⟨1, Nat.one_pos, rfl⟩
  · rename_i hrule; exact ⟨_, pos_of_ruleFor? hrule, rfl⟩
  · rename_i hrule; exact ⟨_, pos_of_ruleFor? hrule, rfl⟩
  · exact ⟨1, Nat.one_pos, rfl⟩

theorem firstPiece_text_ne_nil (c : Char) (rest : List Char) : (firstPiece c rest).text ≠ [] := by
  obtain ⟨n, hn, htext⟩ := exists_firstPiece_text c rest
  simp [htext, Nat.ne_of_gt hn]

theorem firstPiece_text_append (c : Char) (rest : List Char) :
    (firstPiece c rest).text ++ (c :: rest).drop (firstPiece c rest).text.length = c :: rest := by
  obtain ⟨n, -, htext⟩ := exists_firstPiece_text c rest
  exact List.prefix_iff_eq_append.mp (htext ▸ List.take_prefix n _)

/-- The pieces of a text. -/
def cut : List Char → List Piece
  | [] => []
  | c :: rest =>
    firstPiece c rest :: cut ((c :: rest).drop (firstPiece c rest).text.length)
termination_by text => text.length
decreasing_by
  have := List.length_pos_iff.mpr (firstPiece_text_ne_nil c rest)
  simp only [List.length_drop, List.length_cons]
  omega

@[simp] theorem cut_nil : cut [] = [] := by rw [cut]

theorem cut_cons (c : Char) (rest : List Char) :
    cut (c :: rest) =
      firstPiece c rest :: cut ((c :: rest).drop (firstPiece c rest).text.length) := by
  rw [cut]

/-- The pieces fill the text. -/
theorem textOf_cut (text : List Char) : textOf (cut text) = text := by
  fun_induction cut text with
  | case1 => rfl
  | case2 c rest ih => rw [textOf_cons, ih, firstPiece_text_append]

theorem text_ne_nil_of_mem_cut {piece : Piece} (h : piece ∈ cut text) : piece.text ≠ [] := by
  fun_induction cut text with
  | case1 => simp at h
  | case2 c rest ih =>
    rcases List.mem_cons.mp h with rfl | h
    · exact firstPiece_text_ne_nil c rest
    · exact ih h

/-! ## White space -/

theorem isSpace_iff : isSpace c = true ↔ isBlank c = true ∨ c = '\n' := by simp [isSpace]

/-- A piece is white if its first character is. -/
theorem isWhite_firstPiece (c : Char) (rest : List Char) :
    (firstPiece c rest).isWhite = isSpace c := by
  cases hc : isSpace c with
  | true =>
    rcases isSpace_iff.mp hc with hb | rfl
    · have hall : (List.takeWhile isBlank (c :: rest)).all isSpace = true :=
        List.all_eq_true.mpr fun d hd =>
          isSpace_iff.mpr (.inl (List.all_eq_true.mp List.all_takeWhile d hd))
      rw [firstPiece, ruleFor?_blank hb]
      simpa only [Piece.isWhite, Pattern.blanks, Pattern.take_many] using hall
    · rw [firstPiece, ruleFor?_newline]
      rfl
  | false =>
    obtain ⟨n, hn, htext⟩ := exists_firstPiece_text c rest
    cases hp : firstPiece c rest with
    | gap text =>
      obtain ⟨n, rfl⟩ : ∃ k, n = k + 1 := ⟨n - 1, by omega⟩
      rw [hp, List.take_succ_cons] at htext
      obtain rfl : text = c :: rest.take n := htext
      simp [Piece.isWhite, hc]
    | lexeme | stray => rfl

theorem Piece.isSpace_of_isWhite {piece : Piece} (h : piece.isWhite = true) :
    ∀ d ∈ piece.text, isSpace d = true := by
  cases piece with
  | gap text => exact List.all_eq_true.mp h
  | lexeme | stray => cases h

/-- Passing over the white pieces is passing over the white space. -/
theorem dropWhile_cut (text : List Char) :
    (cut text).dropWhile Piece.isWhite = cut (text.dropWhile isSpace) := by
  fun_induction cut text with
  | case1 => simp
  | case2 c rest ih =>
    have hfirst := isWhite_firstPiece c rest
    cases hc : isSpace c with
    | false => rw [List.dropWhile_cons_of_neg (by simp [hfirst, hc]),
        List.dropWhile_cons_of_neg (by simp [hc]), cut_cons]
    | true =>
      have hwhite := Piece.isSpace_of_isWhite (hfirst.trans hc)
      rw [List.dropWhile_cons_of_pos (hfirst.trans hc), ih, ← List.dropWhile_append_of_pos hwhite,
        firstPiece_text_append]

theorem textOf_takeWhile_cut (text : List Char) :
    textOf ((cut text).takeWhile Piece.isWhite) = text.takeWhile isSpace := by
  fun_induction cut text with
  | case1 => simp
  | case2 c rest ih =>
    have hfirst := isWhite_firstPiece c rest
    cases hc : isSpace c with
    | false =>
      rw [List.takeWhile_cons_of_neg (by simp [hfirst, hc]),
        List.takeWhile_cons_of_neg (by simp [hc]), textOf_nil]
    | true =>
      have hwhite := Piece.isSpace_of_isWhite (hfirst.trans hc)
      rw [List.takeWhile_cons_of_pos (hfirst.trans hc), textOf_cons, ih,
        ← List.takeWhile_append_of_pos hwhite, firstPiece_text_append]

/-! ## Tokens -/

/-- Is a multiplication sign meant between a lexeme of the kind and what stands behind it? -/
def joinsNext (kind : TokenKind) (behind : List Piece) : Bool :=
  match behind.dropWhile Piece.isWhite with
  | .lexeme next _ :: _ => kind.multiplies next
  | _ => false

/-- The place behind the white space that begins at a place. -/
def afterWhite (p : Position) (behind : List Piece) : Position :=
  p.afterAll (textOf (behind.takeWhile Piece.isWhite))

/-- The tokens of a piece at a place, which depend on the pieces behind it. -/
def Piece.tokens (p : Position) (behind : List Piece) : Piece → List Token
  | .gap _ => []
  | .lexeme kind text =>
    let stop := p.afterAll text
    ⟨kind, .ofList text, ⟨p, stop⟩⟩ ::
      if joinsNext kind behind then [.implicitStar (afterWhite stop behind)] else []
  | .stray c => [⟨.error, String.singleton c, ⟨p, p.after c⟩⟩]

/-- The tokens of pieces that begin at a place, up to the one that marks the end. -/
def tokensFrom (p : Position) : List Piece → List Token
  | [] => [.eof p]
  | piece :: behind => piece.tokens p behind ++ tokensFrom (p.afterAll piece.text) behind

/-- White space in front leaves no tokens. -/
theorem tokensFrom_afterWhite (p : Position) (pieces : List Piece) :
    tokensFrom (afterWhite p pieces) (pieces.dropWhile Piece.isWhite) = tokensFrom p pieces := by
  induction pieces generalizing p with
  | nil => rfl
  | cons piece behind ih =>
    cases hw : piece.isWhite with
    | false =>
      rw [afterWhite, List.takeWhile_cons_of_neg (by simp [hw]),
        List.dropWhile_cons_of_neg (by simp [hw])]
      rfl
    | true =>
      have hnone : piece.tokens p behind = [] := by cases piece <;> first | rfl | cases hw
      rw [List.dropWhile_cons_of_pos hw, tokensFrom, hnone, List.nil_append, ← ih, afterWhite,
        List.takeWhile_cons_of_pos hw, textOf_cons, Position.afterAll_append, afterWhite]

theorem tokensFrom_space {p : Position} (hc : isSpace c = true) :
    tokensFrom p (cut (c :: rest)) = tokensFrom (p.after c) (cut rest) := by
  rw [← tokensFrom_afterWhite p, ← tokensFrom_afterWhite (p.after c), dropWhile_cut, dropWhile_cut,
    afterWhite, afterWhite, textOf_takeWhile_cut, textOf_takeWhile_cut,
    List.dropWhile_cons_of_pos hc, List.takeWhile_cons_of_pos hc, Position.afterAll_cons]

/-! ## What a step finds -/

/-- The next character that is not white decides. -/
theorem joinsNext_cut (kind : TokenKind) (rest : List Char) :
    joinsNext kind (cut rest) = match rest.dropWhile isSpace with
      | c :: _ => joins kind c
      | [] => false := by
  unfold joinsNext
  rw [dropWhile_cut]
  cases rest.dropWhile isSpace with
  | nil => simp
  | cons c behind =>
    rw [cut_cons, firstPiece]
    dsimp only
    rw [@joins_eq c behind]
    cases ruleFor? (c :: behind) with
    | none => rfl
    | some rule => obtain ⟨pattern, action⟩ := rule; cases action <;> rfl

theorem joint_skipSpace (kind : TokenKind) (p : Position) (rest : List Char) :
    joint kind (Cursor.skipSpace ⟨rest, p⟩) =
      if joinsNext kind (cut rest) then [.token (.implicitStar (afterWhite p (cut rest)))]
      else [] := by
  simp only [joint, Cursor.skipSpace, joinsNext_cut, afterWhite, textOf_takeWhile_cut]
  cases rest.dropWhile isSpace <;> rfl

theorem skip_eq {pattern : Pattern} {action : Action} {p : Position}
    (hrule : ruleFor? text = some ⟨pattern, action⟩) (hn : action ≠ .newline) :
    Cursor.skip ⟨text, p⟩ (pattern text) =
      ⟨text.drop (text.take (pattern text)).length, p.afterAll (text.take (pattern text))⟩ := by
  have hline : '\n' ∉ text.take (pattern text) := staysOnLine_of_ruleFor? hrule hn text
  rw [Cursor.skip, ← Position.afterAll_eq_shift p hline, List.length_take,
    ← List.drop_eq_drop_min]

/-- The emissions of a lexeme, with the multiplication sign that may be meant behind it. -/
def lexemeEmissions (p : Position) (kind : TokenKind) (text : List Char) (behind : List Piece) :
    List Emission :=
  let stop := p.afterAll text
  .token ⟨kind, .ofList text, ⟨p, stop⟩⟩ ::
    if joinsNext kind behind then [.token (.implicitStar (afterWhite stop behind))] else []

/-- A step finds what belongs to the first piece, and moves behind it. Behind a lexeme it passes
over the white space as well. -/
theorem step_cons (last : Option Token) (c : Char) (rest : List Char) (p : Position) :
    step last ⟨c :: rest, p⟩ =
      let behind := (c :: rest).drop (firstPiece c rest).text.length
      let q := p.afterAll (firstPiece c rest).text
      match firstPiece c rest with
      | .gap _ => ([], ⟨behind, q⟩)
      | .lexeme kind text =>
        (lexemeEmissions p kind text (cut behind),
          ⟨behind.dropWhile isSpace, afterWhite q (cut behind)⟩)
      | .stray d =>
        ([.fault ⟨strayCause last p d, p⟩, .token ⟨.error, String.singleton d, ⟨p, q⟩⟩],
          ⟨behind, q⟩) := by
  unfold step firstPiece
  dsimp only
  cases hrule : ruleFor? (c :: rest) with
  | none => rfl
  | some rule =>
    obtain ⟨pattern, action⟩ := rule
    cases action with
    | newline => rfl
    | ignore =>
      dsimp only [Piece.text]
      rw [skip_eq hrule nofun]
    | emit kind =>
      dsimp only [Piece.text, Cursor.lexeme]
      rw [skip_eq hrule nofun, joint_skipSpace]
      simp only [Cursor.skipSpace, lexemeEmissions, afterWhite, textOf_takeWhile_cut]

theorem tokensOf_append (found more : List Emission) :
    tokensOf (found ++ more) = tokensOf found ++ tokensOf more :=
  List.filterMap_append

theorem faultsOf_append (found more : List Emission) :
    faultsOf (found ++ more) = faultsOf found ++ faultsOf more :=
  List.filterMap_append

theorem tokensOf_lexemeEmissions (p : Position) (kind : TokenKind) (text : List Char)
    (behind : List Piece) :
    tokensOf (lexemeEmissions p kind text behind) = (Piece.lexeme kind text).tokens p behind := by
  simp only [lexemeEmissions, Piece.tokens]
  split <;> rfl

theorem faultsOf_lexemeEmissions (p : Position) (kind : TokenKind) (text : List Char)
    (behind : List Piece) : faultsOf (lexemeEmissions p kind text behind) = [] := by
  simp only [lexemeEmissions]
  split <;> rfl

/-- The tokens found by scanning are those of the pieces. -/
theorem tokensOf_emissions (last : Option Token) (c : Cursor) :
    tokensOf (emissions last c) = tokensFrom c.position (cut c.rest) := by
  fun_induction emissions last c with
  | case1 last c h => rw [h, cut_nil]; rfl
  | case2 last c h found ih =>
    obtain ⟨text, p⟩ := c
    obtain ⟨c, rest, rfl⟩ := List.exists_cons_of_ne_nil h
    have hstep := step_cons last c rest p
    rw [tokensOf_append, ih]
    dsimp only [found]
    rw [cut_cons, tokensFrom]
    cases hfirst : firstPiece c rest with
    | gap text | stray d =>
      rw [hfirst] at hstep
      rw [hstep]
      rfl
    | lexeme kind text =>
      rw [hfirst] at hstep
      rw [hstep]
      dsimp only
      rw [tokensOf_lexemeEmissions, ← dropWhile_cut, tokensFrom_afterWhite]

theorem tokensOf_scan (source : String) :
    tokensOf (scan source) = tokensFrom .origin (cut source.toList) :=
  tokensOf_emissions none (.ofString source)

/-! ## Faults -/

/-- Why a character behind a piece begins nothing. A point that touches a number was meant to go on
with it. -/
def Piece.strayCause (before : Option Piece) (c : Char) : Fault.Cause :=
  match before with
  | some (.lexeme .number text) =>
      if c = '.' then .malformedNumber (.ofList text ++ ".")
      else .unrecognisedToken (String.singleton c)
  | _ => .unrecognisedToken (String.singleton c)

/-- The faults of a piece at a place, which depend on the piece before it. -/
def Piece.faults (before : Option Piece) (p : Position) : Piece → List Fault
  | .stray c => [⟨strayCause before c, p⟩]
  | _ => []

def faultsFrom (before : Option Piece) (p : Position) : List Piece → List Fault
  | [] => []
  | piece :: behind =>
      piece.faults before p ++ faultsFrom (some piece) (p.afterAll piece.text) behind

theorem getLast?_cons_or {α : Type} (a : α) (l : List α) (b : Option α) :
    (a :: l).getLast?.or b = l.getLast?.or (some a) := by
  rw [List.getLast?_cons]
  cases l.getLast? <;> rfl

theorem faultsFrom_afterWhite (before : Option Piece) (p : Position) (pieces : List Piece) :
    faultsFrom ((pieces.takeWhile Piece.isWhite).getLast?.or before) (afterWhite p pieces)
      (pieces.dropWhile Piece.isWhite) = faultsFrom before p pieces := by
  induction pieces generalizing before p with
  | nil => rfl
  | cons piece behind ih =>
    cases hw : piece.isWhite with
    | false =>
      rw [afterWhite, List.takeWhile_cons_of_neg (by simp [hw]),
        List.dropWhile_cons_of_neg (by simp [hw])]
      rfl
    | true =>
      have hnone : piece.faults before p = [] := by cases piece <;> first | rfl | cases hw
      rw [List.dropWhile_cons_of_pos hw, faultsFrom, hnone, List.nil_append, ← ih, afterWhite,
        List.takeWhile_cons_of_pos hw, textOf_cons, Position.afterAll_append, afterWhite,
        getLast?_cons_or]

/-- What the scanner remembers of the text before `p`, of which `before` is the last piece. -/
structure Remembers (last : Option Token) (before : Option Piece) (p : Position)
    (text : List Char) : Prop where
  /-- A number that was the last token is the piece before, or some text stands in between. -/
  apart : ∀ t, last = some t → t.kind = .number → ∃ between,
    p = t.span.stop.afterAll between ∧ (between ++ text).length < 2 ^ 32 ∧
      (between = [] → before = some (.lexeme .number t.text.toList))
  /-- A number that is the piece before was the last token, unless a lexeme follows. -/
  touching : ∀ number, before = some (.lexeme .number number) →
    (∃ start, last = some ⟨.number, .ofList number, ⟨start, p⟩⟩) ∨
      ∀ c, (cut text).head? ≠ some (.stray c)

theorem Remembers.strayCause_eq {last : Option Token} {before : Option Piece} {p : Position}
    (h : Remembers last before p text) (hc : (cut text).head? = some (.stray c)) :
    strayCause last p c = Piece.strayCause before c := by
  by_cases hb : ∃ number, before = some (.lexeme .number number)
  · obtain ⟨number, rfl⟩ := hb
    rcases h.touching number rfl with ⟨start, rfl⟩ | hnot
    · simp [strayCause, Piece.strayCause]
    · exact absurd hc (hnot c)
  · have hunknown : Piece.strayCause before c = .unrecognisedToken (String.singleton c) := by
      unfold Piece.strayCause
      split
      · exact absurd ⟨_, rfl⟩ hb
      · rfl
    rw [hunknown]
    unfold strayCause
    split
    · rename_i t
      refine if_neg fun ⟨_, hk, hstop⟩ => hb ?_
      obtain ⟨between, hp, hlength, hnumber⟩ := h.apart t rfl hk
      rw [List.length_append] at hlength
      exact ⟨_, hnumber (Position.afterAll_eq_self (by omega) (hp ▸ hstop).symm)⟩
    · rfl

theorem Remembers.start (p : Position) (text : List Char) : Remembers none none p text :=
  ⟨nofun, nofun⟩

/-- After a gap the number stands apart. -/
theorem Remembers.gap {last : Option Token} {before : Option Piece} {p : Position} {gap : List Char}
    (h : Remembers last before p (c :: rest)) (hfirst : firstPiece c rest = .gap gap) :
    Remembers last (some (.gap gap)) (p.afterAll gap) ((c :: rest).drop gap.length) where
  apart := by
    intro t ht hk
    obtain ⟨between, rfl, hlength, -⟩ := h.apart t ht hk
    have htext := firstPiece_text_append c rest
    have hne := firstPiece_text_ne_nil c rest
    rw [hfirst, Piece.text] at htext hne
    refine ⟨between ++ gap, (Position.afterAll_append _ _ _).symm, ?_, fun hempty => ?_⟩
    · rwa [List.append_assoc, htext]
    · exact absurd (List.append_eq_nil_iff.mp hempty).2 hne
  touching := nofun

theorem Remembers.stray {d : Char} {t : Token} (p : Position) (text : List Char)
    (ht : t.kind ≠ .number) : Remembers (some t) (some (.stray d)) p text where
  apart := by
    intro _ hlast hk
    cases hlast
    exact absurd hk ht
  touching := nofun

/-- After a lexeme, which may be a number, and the white space behind it. -/
theorem Remembers.lexeme {number : List Char} (last : Option Token) (p : Position)
    (hlength : text.length < 2 ^ 32) :
    Remembers (lastToken? last (lexemeEmissions p kind number (cut text)))
      (((cut text).takeWhile Piece.isWhite).getLast?.or (some (.lexeme kind number)))
      (afterWhite (p.afterAll number) (cut text)) (text.dropWhile isSpace) := by
  cases hjoins : joinsNext kind (cut text) with
  | true =>
    refine ⟨fun t ht hk => ?_, fun _ _ => .inr fun c hc => ?_⟩
    · simp only [lexemeEmissions, hjoins, if_true] at ht
      cases ht
      cases hk
    · rw [joinsNext, dropWhile_cut] at hjoins
      cases hahead : cut (text.dropWhile isSpace) with
      | nil => rw [hahead] at hc; cases hc
      | cons piece behind =>
        rw [hahead] at hc hjoins
        cases hc
        cases hjoins
  | false =>
    have hlast : lastToken? last (lexemeEmissions p kind number (cut text)) =
        some ⟨kind, .ofList number, ⟨p, p.afterAll number⟩⟩ := by
      simp only [lexemeEmissions, hjoins]
      rfl
    rw [hlast]
    refine ⟨?_, fun n hn => .inl ⟨p, ?_⟩⟩
    · intro _ hlast hk
      cases hlast
      obtain rfl : kind = .number := hk
      refine ⟨textOf ((cut text).takeWhile Piece.isWhite), rfl, ?_, fun hempty => ?_⟩
      · rwa [textOf_takeWhile_cut, List.takeWhile_append_dropWhile]
      · have hnone : (cut text).takeWhile Piece.isWhite = [] := by
          refine List.eq_nil_iff_forall_not_mem.mpr fun piece hpiece => ?_
          exact text_ne_nil_of_mem_cut ((List.takeWhile_prefix _).subset hpiece)
            (List.flatMap_eq_nil_iff.mp hempty piece hpiece)
        simp [hnone]
    · cases hwhite : ((cut text).takeWhile Piece.isWhite).getLast? with
      | none =>
        rw [hwhite] at hn
        cases hn
        rw [afterWhite, List.getLast?_eq_none_iff.mp hwhite]
        rfl
      | some piece =>
        rw [hwhite] at hn
        cases hn
        have hmem := List.mem_of_getLast? hwhite
        cases List.all_eq_true.mp List.all_takeWhile _ hmem

/-- The faults found by scanning are those of the pieces. -/
theorem faultsOf_emissions (last : Option Token) (c : Cursor) :
    ∀ before, c.rest.length < 2 ^ 32 → Remembers last before c.position c.rest →
      faultsOf (emissions last c) = faultsFrom before c.position (cut c.rest) := by
  fun_induction emissions last c with
  | case1 last c hc => intros; rw [hc, cut_nil]; rfl
  | case2 last c hc found ih =>
    obtain ⟨text, p⟩ := c
    obtain ⟨c, rest, rfl⟩ := List.exists_cons_of_ne_nil hc
    intro before hlength h
    dsimp only at hlength h
    have hstep := step_cons last c rest p
    rw [faultsOf_append]
    dsimp only [found] at ih ⊢
    rw [cut_cons, faultsFrom]
    have hbehind : ((c :: rest).drop (firstPiece c rest).text.length).length < 2 ^ 32 := by
      rw [List.length_drop]
      omega
    cases hfirst : firstPiece c rest with
    | gap gap =>
      rw [hfirst] at hstep hbehind
      rw [hstep] at ih ⊢
      rw [ih _ hbehind (h.gap hfirst)]
      rfl
    | stray d =>
      rw [hfirst] at hstep hbehind
      rw [hstep] at ih ⊢
      have hcause := h.strayCause_eq (c := d) (by rw [cut_cons, hfirst]; rfl)
      rw [ih _ hbehind (.stray _ _ (fun hk => by cases hk)), Piece.faults, ← hcause]
      rfl
    | lexeme kind number =>
      rw [hfirst] at hstep hbehind
      rw [hstep] at ih ⊢
      have hwhite := (List.dropWhile_sublist isSpace
        (l := (c :: rest).drop (Piece.lexeme kind number).text.length)).length_le
      rw [ih _ (Nat.lt_of_le_of_lt hwhite hbehind) (.lexeme last p hbehind), ← dropWhile_cut,
        faultsFrom_afterWhite, faultsOf_lexemeEmissions]
      rfl

theorem faultsOf_scan {source : String} (hlength : source.toList.length < 2 ^ 32) :
    faultsOf (scan source) = faultsFrom none .origin (cut source.toList) :=
  faultsOf_emissions none (.ofString source) none hlength (.start _ _)

end Precedence

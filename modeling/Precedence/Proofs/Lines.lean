import Precedence.Proofs.DividedFaults
import Precedence.Proofs.WhiteSpace

/-!
# Scanning line by line

No lexeme and no comment reaches over a line feed, so two texts of which one stands below the other
are scanned as each of them is by itself, the lower one so many lines further down
(`scannedByLine_scan`). In the division of the whole, the gap at the end of the upper text and the
gap in front of the lower one have become one (`Divides.joinLines`). That is all there is to carry
over: where this gap is nothing but white space, the last lexeme above and the first one below may
be factors, and a multiplication sign nobody wrote is meant between them.

Lines are counted in 32 bits. Within the length allowed no count is too large for a word, so that
each line number below is raised by just the number of line feeds in front.
-/

namespace Precedence

/-! ## Further down -/

/-- The place so many lines further down, in the same column. -/
def Position.down (k : Nat) (p : Position) : Position := ⟨p.line + .ofNat k, p.column⟩

def Span.down (k : Nat) (span : Span) : Span := ⟨span.start.down k, span.stop.down k⟩

def Token.down (k : Nat) (t : Token) : Token := { t with span := t.span.down k }

def Fault.down (k : Nat) (fault : Fault) : Fault := { fault with position := fault.position.down k }

variable {k : Nat} {p : Position} {text text' gap before : List Char} {s : Segment}
  {front rest : List Segment} {a b : String}

namespace Position

theorem after_down (k : Nat) (p : Position) (c : Char) :
    (p.down k).after c = (p.after c).down k := by
  by_cases hc : c = '\n'
  · simp [after, down, hc, UInt32.add_assoc, UInt32.add_comm 1]
  · simp [after, down, hc]

theorem afterAll_down (k : Nat) (p : Position) (text : List Char) :
    (p.down k).afterAll text = (p.afterAll text).down k := by
  induction text generalizing p with
  | nil => rfl
  | cons c text ih => rw [afterAll_cons, after_down, ih, afterAll_cons]

/-- Behind a line feed a text goes on as it would begin, some lines further down. -/
theorem afterAll_newline (text : List Char) :
    origin.afterAll (text ++ ['\n']) = origin.down (1 + text.count '\n') := by
  have hline := line_afterAll origin text
  rw [afterAll_append, afterAll_cons, afterAll_nil, after, if_pos rfl, hline, down,
    UInt32.ofNat_add, UInt32.add_assoc, UInt32.add_comm (.ofNat 1)]
  rfl

/-- The line of a place grows at most as the number of line feeds read. -/
theorem line_afterAll_le (text : List Char) :
    (origin.afterAll text).line.toNat ≤ 1 + text.length := by
  have hcount : text.count '\n' ≤ text.length := List.count_le_length
  have hmod := Nat.mod_le (1 + text.count '\n') (2 ^ 32)
  rw [line_afterAll]
  simp only [origin, UInt32.toNat_add, UInt32.toNat_ofNat', UInt32.reduceToNat]
  omega

theorem toNat_line_down (h : p.line.toNat + k < 2 ^ 32) :
    (p.down k).line.toNat = p.line.toNat + k := by
  simp only [down, UInt32.toNat_add, UInt32.toNat_ofNat']
  omega

end Position

theorem Segment.sign_down (k : Nat) (before : TokenKind) (p : Position) (s : Segment) :
    s.sign before (p.down k) = (s.sign before p).map (Token.down k) := by
  rw [sign, sign, Position.afterAll_down]
  split <;> rfl

theorem Segment.token_down (k : Nat) (p : Position) (s : Segment) :
    s.token (p.down k) = (s.token p).down k := by
  rw [token, Position.afterAll_down, Position.afterAll_down]
  rfl

theorem Segment.faults_down (k : Nat) (before : Option Piece) (p : Position) (s : Segment) :
    s.faults before (p.down k) = (s.faults before p).map (Fault.down k) := by
  rw [faults, faults, Position.afterAll_down]
  split
  · rw [List.map_map]
    rfl
  · rfl

theorem dividedTokens_down (k : Nat) (before : TokenKind) (p : Position)
    (segments : List Segment) :
    dividedTokens before (p.down k) segments =
      (dividedTokens before p segments).map (Token.down k) := by
  induction segments generalizing before p with
  | nil => rfl
  | cons s rest ih =>
    rw [dividedTokens, s.sign_down, s.token_down, Position.afterAll_down, ih, dividedTokens,
      List.map_append, List.map_cons]

theorem dividedFaults_down (k : Nat) (before : Option Piece) (p : Position)
    (segments : List Segment) :
    dividedFaults before (p.down k) segments =
      (dividedFaults before p segments).map (Fault.down k) := by
  induction segments generalizing before p with
  | nil => rfl
  | cons s rest ih =>
    rw [dividedFaults, s.faults_down, Position.afterAll_down, ih, dividedFaults, List.map_append]

/-! ## One text below another -/

/-- At the end of a text a gap leaves no comment open but one that a line feed ends. -/
theorem IsGap.before_newline (h : IsGap gap []) : IsGap gap ('\n' :: text) := by
  generalize hnil : [] = behind at h
  induction h with
  | nil => exact .nil
  | space hc _ ih => exact .space hc (ih hnil)
  | @comment body gap behind hbody hend _ ih =>
    subst hnil
    refine .comment hbody ?_ (ih rfl)
    cases gap with
    | nil => exact fun c hc => (Option.some.inj hc).symm
    | cons c gap => exact hend

/-- The last segment is a gap and the mark of the end. -/
theorem Divides.exists_last {segments : List Segment} (h : Divides text segments) :
    ∃ front gap, segments = front ++ [⟨gap, .eof, []⟩] ∧ IsGap gap [] := by
  induction h with
  | last hgap => exact ⟨[], _, rfl, hgap⟩
  | @segment s _ _ _ _ _ _ _ ih =>
    obtain ⟨front, gap, rfl, hgap⟩ := ih
    exact ⟨s :: front, gap, rfl, hgap⟩

/-- The gap at the end of the one text goes on in the gap in front of the other. -/
def Segment.behindLine (gap : List Char) (s : Segment) : Segment :=
  ⟨gap ++ '\n' :: s.gap, s.kind, s.word⟩

theorem written_last (front : List Segment) (gap : List Char) :
    written (front ++ [⟨gap, .eof, []⟩]) = written front ++ gap := by
  simp

/-- A text below another is divided as the two are, but for the gap between them. -/
theorem Divides.joinLines (h : Divides text (front ++ [⟨gap, .eof, []⟩])) (hgap : IsGap gap [])
    (h' : Divides text' (s :: rest)) :
    Divides (text ++ '\n' :: text') (front ++ s.behindLine gap :: rest) := by
  have hlower : Divides (gap ++ '\n' :: text') (s.behindLine gap :: rest) := by
    have hwith := h'.withGap fun _ _ hs => hgap.before_newline.append (.space rfl hs)
    rw [List.append_assoc, List.cons_append, ← written_cons, ← h'.written_eq] at hwith
    exact hwith
  -- Up to its last gap the upper text is divided as it was, since a line feed goes on with nothing.
  have hwritten : written [⟨gap, .eof, []⟩] = gap ++ [] := by simp
  have hall := h.insert (solitary_of_isSpace rfl) (List.cons_ne_nil _ _) hwritten hlower
  rwa [h.written_eq, written_last, List.append_assoc]

/-! ## Behind a line feed -/

section BehindLine

variable {q : Position} (hq : q.afterAll (gap ++ ['\n']) = Position.origin.down k)

include hq

theorem Segment.afterAll_gap_behindLine (s : Segment) :
    q.afterAll (s.behindLine gap).gap = (Position.origin.afterAll s.gap).down k := by
  rw [← Position.afterAll_down, ← hq, ← Position.afterAll_append, List.append_assoc]
  rfl

theorem Segment.afterAll_text_behindLine (s : Segment) :
    q.afterAll (s.behindLine gap).text = (Position.origin.afterAll s.text).down k := by
  rw [text, Position.afterAll_append, s.afterAll_gap_behindLine hq, Position.afterAll_down,
    ← Position.afterAll_append]
  rfl

/-- The tokens behind a line feed are those of the text that begins there, and a sign in front where
one is meant. -/
theorem dividedTokens_behindLine (before : TokenKind) (s : Segment) (rest : List Segment) :
    dividedTokens before q (s.behindLine gap :: rest) =
      (if (s.behindLine gap).isJoined before then
        [.implicitStar ((s.token .origin).start.down k)] else []) ++
        (dividedTokens .eof .origin (s :: rest)).map (Token.down k) := by
  have hgap := s.afterAll_gap_behindLine hq
  have htext := s.afterAll_text_behindLine hq
  have hfirst : s.sign .eof .origin = [] := rfl
  have htoken : (s.behindLine gap).token q = (s.token .origin).down k := by
    rw [Segment.token, hgap, htext]
    rfl
  rw [dividedTokens, htoken, htext, dividedTokens_down, dividedTokens, hfirst, Segment.sign, hgap]
  rfl

/-- The faults behind a line feed are those of the text that begins there. -/
theorem dividedFaults_behindLine (before : Option Piece) (s : Segment) (rest : List Segment) :
    dividedFaults before q (s.behindLine gap :: rest) =
      (dividedFaults none .origin (s :: rest)).map (Fault.down k) := by
  have hgap := s.afterAll_gap_behindLine hq
  have htext := s.afterAll_text_behindLine hq
  -- No number touches what stands behind a line feed, as none touches the beginning of a text.
  have hne : (s.behindLine gap).gap ≠ [] := by simp [Segment.behindLine]
  have hfaults : (s.behindLine gap).faults before q =
      (s.faults none .origin).map (Fault.down k) := by
    rw [← s.faults_down, Segment.faults, hgap, if_neg hne, Segment.faults, ite_self,
      Position.afterAll_down]
    rfl
  rw [dividedFaults, hfaults, htext, dividedFaults_down, dividedFaults, List.map_append]
  rfl

end BehindLine

theorem dividedTokens_append (before : TokenKind) (p : Position) (front back : List Segment) :
    dividedTokens before p (front ++ back) = dividedTokens before p front ++
      dividedTokens (lastKind before front) (p.afterAll (written front)) back := by
  induction front generalizing before p with
  | nil => rfl
  | cons s front ih =>
    have hwritten : written (s :: front) = s.text ++ written front := rfl
    rw [List.cons_append, dividedTokens, ih, dividedTokens, lastKind_cons, hwritten,
      Position.afterAll_append, List.append_assoc, List.cons_append]

/-! ## Where the texts meet -/

/-- There is nothing but white space in the text behind the place. -/
def BlankBehind (text : List Char) (p : Position) : Prop :=
  ∃ front space, text = front ++ space ∧ p = Position.origin.afterAll front ∧
    space.all isSpace = true

/-- There is nothing but white space in the text before the place. -/
def BlankBefore (text : List Char) (p : Position) : Prop :=
  ∃ space back, text = space ++ back ∧ p = Position.origin.afterAll space ∧
    space.all isSpace = true

/-- The last token of a text and the first of the text below it are factors: the one is a number or
a closing parenthesis, the other begins an operand, and there is nothing but white space between
them. -/
structure FactorsAcross (a b : String) (t u : Token) : Prop where
  kinds : (t.kind = .number ∨ t.kind = .closeParen) ∧
    (u.kind = .identifier ∨ u.kind = .openParen ∨ t.kind = .closeParen ∧ u.kind = .number)
  upper : BlankBehind a.toList t.span.stop
  lower : BlankBefore b.toList u.start

theorem TokenKind.multiplies_iff {kind next : TokenKind} : kind.multiplies next = true ↔
    (kind = .number ∨ kind = .closeParen) ∧
      (next = .identifier ∨ next = .openParen ∨ kind = .closeParen ∧ next = .number) := by
  cases kind <;> grind [multiplies]

/-- What has been read of a text is known by the place where it ends. -/
theorem eq_of_afterAll_eq {front front' back back' : List Char}
    (hlength : text.length < 2 ^ 32) (h : text = front ++ back) (h' : text = front' ++ back')
    (hp : Position.origin.afterAll front = Position.origin.afterAll front') :
    front = front' ∧ back = back' := by
  have hfront : front.length ≤ text.length := by simp [h]
  have hfront' : front'.length ≤ text.length := by simp [h']
  have hplace : placeOf text front.length = placeOf text front'.length := by
    rw [h, placeOf_append, ← h, h', placeOf_append, hp]
  exact List.append_inj (h.symm.trans h') (placeOf_inj hlength hfront hfront' hplace)

theorem blankBehind_iff {front space : List Char} (hlength : text.length < 2 ^ 32)
    (h : text = front ++ space) :
    BlankBehind text (Position.origin.afterAll front) ↔ space.all isSpace = true := by
  constructor
  · rintro ⟨front', space', h', hp, hspace⟩
    rwa [(eq_of_afterAll_eq hlength h h' hp).2]
  · exact fun hspace => ⟨front, space, h, rfl, hspace⟩

theorem blankBefore_iff {space back : List Char} (hlength : text.length < 2 ^ 32)
    (h : text = space ++ back) :
    BlankBefore text (Position.origin.afterAll space) ↔ space.all isSpace = true := by
  constructor
  · rintro ⟨space', back', h', hp, hspace⟩
    rwa [(eq_of_afterAll_eq hlength h h' hp).1]
  · exact fun hspace => ⟨space, back, h, rfl, hspace⟩

/-- The tokens of a division end with that of the last segment. -/
theorem getLast?_dividedTokens (before : TokenKind) (p : Position) (hne : front ≠ []) :
    ∃ t, (dividedTokens before p front).getLast? = some t ∧ t.kind = lastKind before front ∧
      t.span.stop = p.afterAll (written front) := by
  induction front generalizing before p with
  | nil => exact absurd rfl hne
  | cons s front ih =>
    rw [dividedTokens, lastKind_cons]
    cases front with
    | nil =>
      exact ⟨s.token p, List.getLast?_concat .., rfl, by simp [Segment.token, Segment.text]⟩
    | cons next front =>
      obtain ⟨t, ht, hkind, hstop⟩ := ih s.kind (p.afterAll s.text) (List.cons_ne_nil next front)
      refine ⟨t, ?_, hkind, ?_⟩
      · rw [List.getLast?_append, List.getLast?_cons, ht]
        rfl
      · rw [hstop, ← Position.afterAll_append]
        rfl

/-! ## Scanning -/

/-- How many lines further down a text begins that stands below another. -/
def linesOf (a : String) : Nat := 1 + a.toList.count '\n'

/-- The two texts, the one below the other, are scanned as each of them is by itself. -/
structure ScannedByLine (a b : String) : Prop where
  /-- The mark of the end of the upper text is left out, and a sign nobody wrote is put in, where
  the lower text begins, exactly if it begins with a factor of what the upper text ends with. -/
  tokens : ∃ row signs u rest,
    tokensOf (scan a) = row ++ [.eof (placeOf a.toList a.toList.length)] ∧
    tokensOf (scan b) = u :: rest ∧
    tokensOf (scan (a ++ "\n" ++ b)) =
      row ++ (signs ++ (u :: rest).map (Token.down (linesOf a))) ∧
    ((∃ t ∈ row.getLast?, FactorsAcross a b t u) →
      signs = [.implicitStar (u.start.down (linesOf a))]) ∧
    ((¬ ∃ t ∈ row.getLast?, FactorsAcross a b t u) → signs = [])
  faults : faultsOf (scan (a ++ "\n" ++ b)) =
    faultsOf (scan a) ++ (faultsOf (scan b)).map (Fault.down (linesOf a))
  /-- Every line number of the lower text is raised by the number of lines. -/
  lines : ∀ t ∈ tokensOf (scan b),
    (t.down (linesOf a)).span.start.line.toNat = t.span.start.line.toNat + linesOf a ∧
      (t.down (linesOf a)).span.stop.line.toNat = t.span.stop.line.toNat + linesOf a
  faultLines : ∀ fault ∈ faultsOf (scan b),
    (fault.down (linesOf a)).position.line.toNat = fault.position.line.toNat + linesOf a

theorem toList_lines (a b : String) :
    (a ++ "\n" ++ b).toList = a.toList ++ '\n' :: b.toList := by
  simp

theorem linesOf_le (a : String) : linesOf a ≤ 1 + a.toList.length :=
  Nat.add_le_add_left List.count_le_length 1

/-- The last lexeme above and the first below are joined exactly if their tokens are factors. -/
theorem isJoined_behindLine_iff (ha : Divides a.toList (front ++ [⟨gap, .eof, []⟩]))
    (hb : Divides b.toList (s :: rest)) (hla : a.toList.length < 2 ^ 32)
    (hlb : b.toList.length < 2 ^ 32) :
    (s.behindLine gap).isJoined (lastKind .eof front) = true ↔
      ∃ t ∈ (dividedTokens .eof .origin front).getLast?, FactorsAcross a b t (s.token .origin) := by
  have hawritten : a.toList = written front ++ gap := by rw [ha.written_eq, written_last]
  have hbwritten : b.toList = s.gap ++ (s.word ++ written rest) := by
    rw [hb.written_eq, written_cons]
  have hspace : (gap ++ '\n' :: s.gap).all isSpace = true ↔
      gap.all isSpace = true ∧ s.gap.all isSpace = true := by
    simp [show isSpace '\n' = true from rfl]
  rw [Segment.isJoined, Bool.and_eq_true, Segment.behindLine, hspace, TokenKind.multiplies_iff,
    ← blankBehind_iff hla hawritten, ← blankBefore_iff hlb hbwritten]
  by_cases hne : front = []
  · -- Without a lexeme above there is nothing to multiply with.
    subst hne
    simp [lastKind, dividedTokens]
  obtain ⟨t, ht, hkind, hstop⟩ := getLast?_dividedTokens .eof .origin hne
  rw [ht, ← hkind, ← hstop]
  constructor
  · rintro ⟨hkinds, hupper, hlower⟩
    exact ⟨t, rfl, hkinds, hupper, hlower⟩
  · rintro ⟨_, ⟨⟩, hkinds, hupper, hlower⟩
    exact ⟨hkinds, hupper, hlower⟩

/-- Behind the line feed under a text its place is the first one, so many lines down. -/
theorem afterAll_written_newline (ha : Divides a.toList (front ++ [⟨gap, .eof, []⟩])) :
    (Position.origin.afterAll (written front)).afterAll (gap ++ ['\n']) =
      Position.origin.down (linesOf a) := by
  rw [← Position.afterAll_append, ← List.append_assoc, ← written_last, ← ha.written_eq,
    Position.afterAll_newline, linesOf]

theorem line_add_linesOf_lt (hlength : a.toList.length + b.toList.length ≤ 2 ^ 32 - 3) :
    ∀ t ∈ tokensOf (scan b), t.span.start.line.toNat + linesOf a < 2 ^ 32 ∧
      t.span.stop.line.toNat + linesOf a < 2 ^ 32 := by
  obtain ⟨segments, hb⟩ := exists_divides b.toList
  rw [tokensOf_scan_of_divides hb]
  refine @forall_place_dividedTokens _ _ _ (fun p => p.line.toNat + linesOf a < 2 ^ 32) ?_
  intro read hread
  have hle := hread.length_le
  rw [← hb.written_eq] at hle
  have hline := Position.line_afterAll_le read
  have hlines := linesOf_le a
  omega

theorem faultLine_add_linesOf_lt (hlength : a.toList.length + b.toList.length ≤ 2 ^ 32 - 3) :
    ∀ fault ∈ faultsOf (scan b), fault.position.line.toNat + linesOf a < 2 ^ 32 := by
  intro fault hfault
  have hposition : fault.position ∈ (faultsOf (scan b)).map Fault.position :=
    List.mem_map_of_mem hfault
  rw [scan, positions_faultsOf] at hposition
  obtain ⟨t, ht, hstart⟩ := List.mem_map.mp hposition
  exact hstart ▸ (line_add_linesOf_lt hlength t (List.mem_filter.mp ht).1).1

/-- Two texts are divided by themselves and, the one below the other, together. -/
theorem exists_divides_lines (a b : String) : ∃ front gap s rest,
    Divides a.toList (front ++ [⟨gap, .eof, []⟩]) ∧ Divides b.toList (s :: rest) ∧
      Divides (a ++ "\n" ++ b).toList (front ++ s.behindLine gap :: rest) := by
  obtain ⟨_, ha⟩ := exists_divides a.toList
  obtain ⟨front, gap, rfl, hgap⟩ := ha.exists_last
  obtain ⟨segments, hb⟩ := exists_divides b.toList
  obtain ⟨s, rest, rfl⟩ : ∃ s rest, segments = s :: rest := by
    cases hb <;> exact ⟨_, _, rfl⟩
  refine ⟨front, gap, s, rest, ha, hb, ?_⟩
  rw [toList_lines]
  exact ha.joinLines hgap hb

theorem faultsOf_scan_lines (hlength : a.toList.length + b.toList.length ≤ 2 ^ 32 - 3) :
    faultsOf (scan (a ++ "\n" ++ b)) =
      faultsOf (scan a) ++ (faultsOf (scan b)).map (Fault.down (linesOf a)) := by
  obtain ⟨front, gap, s, rest, ha, hb, hab⟩ := exists_divides_lines a b
  have hla : a.toList.length < 2 ^ 32 := by omega
  have hlb : b.toList.length < 2 ^ 32 := by omega
  have hlab : (a ++ "\n" ++ b).toList.length < 2 ^ 32 := by
    rw [toList_lines, List.length_append, List.length_cons]
    omega
  rw [faultsOf_scan_of_divides hlab hab, dividedFaults_append,
    dividedFaults_behindLine (afterAll_written_newline ha), faultsOf_scan_of_divides hla ha,
    dividedFaults_append, faultsOf_scan_of_divides hlb hb]
  exact congrArg (· ++ _) (List.append_nil _).symm

theorem tokensOf_scan_upper (ha : Divides a.toList (front ++ [⟨gap, .eof, []⟩])) :
    tokensOf (scan a) =
      dividedTokens .eof .origin front ++ [.eof (placeOf a.toList a.toList.length)] := by
  rw [tokensOf_scan_of_divides ha, dividedTokens_append, dividedTokens_last,
    ← Position.afterAll_append, ← written_last, ← ha.written_eq, placeOf, List.take_length]

/-- In texts that are together not too long, scanning goes line by line. -/
theorem scannedByLine_scan (hlength : a.length + b.length ≤ 2 ^ 32 - 3) : ScannedByLine a b := by
  rw [← String.length_toList, ← String.length_toList] at hlength
  obtain ⟨front, gap, s, rest, ha, hb, hab⟩ := exists_divides_lines a b
  have hjoined := isJoined_behindLine_iff ha hb (by omega) (by omega)
  refine ⟨⟨_, if (s.behindLine gap).isJoined (lastKind .eof front) then
      [.implicitStar ((s.token .origin).start.down (linesOf a))] else [],
    s.token .origin, dividedTokens s.kind (Position.origin.afterAll s.text) rest,
    tokensOf_scan_upper ha, tokensOf_scan_of_divides hb, ?_,
    fun hfactors => if_pos (hjoined.mpr hfactors), fun hnone => if_neg (mt hjoined.mp hnone)⟩,
    faultsOf_scan_lines hlength, fun t ht => ?_, fun fault hfault => ?_⟩
  · rw [tokensOf_scan_of_divides hab, dividedTokens_append,
      dividedTokens_behindLine (afterAll_written_newline ha)]
    rfl
  · obtain ⟨hstart, hstop⟩ := line_add_linesOf_lt hlength t ht
    exact ⟨Position.toNat_line_down hstart, Position.toNat_line_down hstop⟩
  · exact Position.toNat_line_down (faultLine_add_linesOf_lt hlength fault hfault)

/-- A name in parentheses and a name on the next line, with a point behind a number on the one after
that. -/
theorem scannedByLine_parenthesised :
    "(a)".length + " b\n2.".length ≤ 2 ^ 32 - 3 ∧ ScannedByLine "(a)" " b\n2." ∧
      (tokensOf (scan ("(a)" ++ "\n" ++ " b\n2."))).map Token.display =
        ["OpenParen \"(\" :1:1", "Identifier \"a\" :1:2", "CloseParen \")\" :1:3",
          "implicit * :2:2", "Identifier \"b\" :2:2", "Number \"2\" :3:1", "Error \".\" :3:2",
          "<eof> :3:3"] := by
  have hlength : "(a)".length + " b\n2.".length ≤ 2 ^ 32 - 3 := by decide
  exact ⟨hlength, scannedByLine_scan hlength, by cbv⟩

end Precedence

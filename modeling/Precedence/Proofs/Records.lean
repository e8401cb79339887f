import Precedence.Log
import Precedence.Proofs.Diagnostics
import Precedence.Proofs.Dispatches
import Precedence.Proofs.Emptiness

/-!
# What the log tells of a parse

The log shows a text from three sides: what scanning found, which rules the parser applied, and how
many nodes came of it. They agree (`logAccounts`): the records of tokens are those of the scanned
ones, and the records of rules name tokens of the row in order, none twice. Where the text is
accepted they name all that begins or continues something, and each of them stands for a node but
those of the parentheses that only group.

The log is nothing but messages, so a record is known by the first words of its message
(`LogRecord.heading`, `LogRecord.subject`).
-/

namespace Precedence

variable {source : String} {maxDepth : Nat} {e : Expr} {ts : List (Token × Part)}

/-! ## The tokens that rules are applied to -/

/-- Commas and closing parentheses are read without a rule, and so is the end. -/
def Token.isApplied (t : Token) : Bool := !t.isOneOf [.comma, .closeParen, .eof]

/-- The token of the entry is an opening parenthesis that begins an expression. -/
def opensGroup : Token × Bool → Bool
  | (t, begins) => begins && t.kind = .openParen

section Parts

variable {x : Token × Part}

theorem isSome_entry?_arithmetic (hfits : Part.Fits .arithmetic x)
    (hruled : Part.Ruled .arithmetic x) (heof : x.1.kind ≠ .eof) :
    (Part.entry? x).isSome = x.1.isApplied := by
  have hkind : ∀ kind, kind ≠ .eof → (Grammar.arithmetic.prefixRule? kind).isSome ∨
      (Grammar.arithmetic.infixRule? kind).isSome → kind ∉ [.comma, .closeParen, .eof] := by
    intro kind
    cases kind <;> decide
  have happlied : x.1.kind ∉ [.comma, .closeParen, .eof] → x.1.isApplied = true := by
    intro h
    simpa [Token.isApplied, Token.isOneOf] using h
  obtain ⟨t, part⟩ := x
  cases part with
  | beginning => exact (happlied (hkind _ heof (.inl hruled.1))).symm
  | continuing => exact (happlied (hkind _ heof (.inr hruled))).symm
  | opening => exact (happlied (hkind _ heof (.inl (hfits ▸ rfl)))).symm
  | closing | separating =>
    have hk : t.kind = _ := hfits
    simp [Part.entry?, Token.isApplied, Token.isOneOf, hk]

/-- In arithmetic only a parenthesis opens a group, and where one begins an expression it does. -/
theorem opensGroup_entry (hfits : Part.Fits .arithmetic x) (hruled : Part.Ruled .arithmetic x)
    {entry : Token × Bool} (h : Part.entry? x = some entry) :
    opensGroup entry = !x.2.isNode := by
  have hkind : ∀ kind, Grammar.arithmetic.prefixRule? kind = some .group ↔ kind = .openParen := by
    intro kind
    cases kind <;> decide
  obtain ⟨t, part⟩ := x
  cases part with
  | beginning =>
    cases h
    simpa [opensGroup, Part.isNode] using fun hk => hruled.2 ((hkind _).mpr hk)
  | continuing => cases h; rfl
  | opening =>
    cases h
    simpa [opensGroup, Part.isNode] using (hkind _).mp hfits
  | closing | separating => cases h

end Parts

/-- In a row of arithmetic the tokens that rules are applied to are told by their kinds, and all of
them make nodes but the parentheses that open a group. -/
theorem entries_arithmetic
    (h : ∀ x ∈ ts, (Part.Fits .arithmetic x ∧ Part.Ruled .arithmetic x) ∧ x.1.kind ≠ .eof) :
    (ts.filterMap Part.entry?).map Prod.fst = (ts.map Prod.fst).filter (·.isApplied) ∧
      (nodeTokens ts).length + (ts.filterMap Part.entry?).countP opensGroup =
        (ts.filterMap Part.entry?).length := by
  induction ts with
  | nil => exact ⟨rfl, rfl⟩
  | cons x ts ih =>
    obtain ⟨⟨⟨hfits, hruled⟩, heof⟩, hts⟩ := List.forall_mem_cons.mp h
    obtain ⟨htokens, hcount⟩ := ih hts
    have happlied := isSome_entry?_arithmetic hfits hruled heof
    have hopens := @opensGroup_entry x hfits hruled
    obtain ⟨t, part⟩ := x
    rw [nodeTokens_cons]
    cases part with
    | beginning | continuing | opening =>
      have hgroup := hopens rfl
      simp only [Part.entry?, Part.isNode] at happlied hgroup
      constructor
      · simp [Part.entry?, htokens, ← happlied]
      · simp only [Part.entry?, List.filterMap_cons, List.countP_cons, hgroup, Part.isNode,
          List.length_cons, Bool.not_true, Bool.not_false, Bool.false_eq_true, reduceIte]
        omega
    | closing | separating =>
      rw [List.filterMap_cons_none rfl, List.map_cons,
        List.filter_cons_of_neg (by rw [← happlied]; nofun)]
      exact ⟨htokens, hcount⟩

/-! ## Rules and nodes of an accepted text -/

/-- The row of an accepted text that is not empty is read to its end, each token in its part, and
the rules applied are those of the parts. -/
theorem exists_spells_row (h : parseWithin maxDepth source = .ok e) (hne : e ≠ .empty) :
    ∃ ts p, tokensOf (scan source) = ts.map Prod.fst ++ [.eof p] ∧ (∀ x ∈ ts, x.1.kind ≠ .eof) ∧
      Spells .arithmetic ts e ∧
      (runTokens .arithmetic maxDepth (tokensOf (scan source))).dispatches.map Dispatch.entry =
        ts.filterMap Part.entry? := by
  obtain ⟨row, q, hrow, ⟨-, hempty⟩ | he⟩ := derives_of_parseWithin h
  · exact absurd hempty hne
  obtain ⟨t, hread, hend⟩ := exists_readsFirst (parseTokens_of_parseWithin h)
  obtain ⟨ts, htook, hspells⟩ := (Parser.ends_of_ok hread.2).mp
    (Parser.writes_expr (p := ⟨.arithmetic, .ofList (tokensOf (scan source)), maxDepth⟩)
      (isBlank_of_readsFirst hread hne) maxDepth .default .start)
  have hbody : (Stream.ofList (tokensOf (scan source))).body = row.toArray := by
    rw [hrow, Stream.ofList_concat rfl]
  have hproper : ∀ u ∈ row, u.kind ≠ .eof := fun u hu => (he.isProper u hu).1
  -- No token of the row marks the end, so the parse has stopped behind the row.
  have hbehind : (Stream.ofList (tokensOf (scan source))).body.size ≤ t.cursor := by
    refine Nat.not_lt.mp fun hlt => hproper _ ?_ hend
    rw [Stream.token, Array.getElem?_eq_getElem hlt, Option.getD_some]
    simp [hbody]
  have hall := htook.spans.unread_eq
  rw [Parser.unread_of_le (s := t) hbehind, List.append_nil] at hall
  have hspelled : row = ts.map Prod.fst := by
    rw [← hall, Parser.unread, hbody]
    rfl
  obtain ⟨ds, hds, hentries⟩ := htook.trace
  refine ⟨ts, q, hspelled ▸ hrow, fun x hx => hproper _ ?_, hspells, ?_⟩
  · rw [hspelled]
    exact List.mem_map_of_mem hx
  · rw [hread.runTokens_eq]
    dsimp only
    rw [hds, ← hentries]
    simp [Progress.start]

/-- In an accepted text that is not empty the rules are applied to the tokens that are neither
commas nor closing parentheses, and each makes a node but those that open a group. -/
theorem applied_of_parseWithin (h : parseWithin maxDepth source = .ok e) (hne : e ≠ .empty) :
    (runTokens .arithmetic maxDepth (tokensOf (scan source))).dispatches.map Dispatch.token =
        (tokensOf (scan source)).filter (·.isApplied) ∧
      e.count + (runTokens .arithmetic maxDepth (tokensOf (scan source))).dispatches.countP
          (opensGroup ·.entry) =
        (runTokens .arithmetic maxDepth (tokensOf (scan source))).dispatches.length := by
  obtain ⟨ts, q, hrow, hproper, hspells, hentries⟩ := exists_spells_row h hne
  obtain ⟨htokens, hcount⟩ := entries_arithmetic fun x hx =>
    ⟨hspells.parts x hx, hproper x hx⟩
  have hnodes : (nodeTokens ts).length = e.count :=
    hspells.makes.length_eq.trans e.length_walk
  rw [← hentries, hnodes, List.countP_map, List.length_map] at hcount
  have hlast : [Token.eof q].filter (·.isApplied) = [] := rfl
  have hfilter : (tokensOf (scan source)).filter (·.isApplied) =
      (ts.filterMap Part.entry?).map Prod.fst := by
    rw [hrow, List.filter_append, hlast, List.append_nil, htokens]
  rw [hfilter, ← hentries, List.map_map]
  exact ⟨rfl, hcount⟩

/-! ## Records -/

namespace LogRecord

/-- The first word of the message. -/
def heading (r : LogRecord) : String := .ofList (r.message.toList.takeWhile (· ≠ ' '))

/-- The second word. -/
def subject (r : LogRecord) : String :=
  .ofList (((r.message.toList.dropWhile (· ≠ ' ')).drop 1).takeWhile (· ≠ ' '))

/-- Is the record that of a rule? -/
def isRule (r : LogRecord) : Bool := r.heading = "nud" || r.heading = "led"

/-- Is the record that of a rule which begins an expression with an opening parenthesis? -/
def isOpening (r : LogRecord) : Bool := r.heading = "nud" && r.subject = "OpenParen"

/-- The record of a token that scanning found. -/
def ofToken (t : Token) : LogRecord := ofEmission (.token t)

/-- The record of the number of tokens. -/
def ofCount (n : Nat) : LogRecord := ⟨.debug, "tokenized " ++ toString n ++ " tokens"⟩

/-- The record of the number of nodes. -/
def ofNodes (n : Nat) : LogRecord := ⟨.debug, "parsed " ++ toString n ++ " nodes"⟩

/-- The record is that of a rule applied to the token. -/
def Names (r : LogRecord) (t : Token) : Prop :=
  ∃ power, r = ofDispatch (.begins t power) ∨ r = ofDispatch (.continues t power)

theorem names_ofDispatch (d : Dispatch) : (ofDispatch d).Names d.token := by
  cases d with
  | begins t power => exact ⟨power, .inl rfl⟩
  | continues t power => exact ⟨power, .inr rfl⟩

section Headings

@[simp] theorem heading_parsing (level : LogLevel) (text : String) :
    heading ⟨level, "parsing " ++ text⟩ = "parsing" := by
  simp [heading]

@[simp] theorem heading_ofToken (t : Token) : (ofToken t).heading = "token" := by
  simp [heading, ofToken, ofEmission]

@[simp] theorem heading_ofCount (n : Nat) : (ofCount n).heading = "tokenized" := by
  simp [heading, ofCount]

@[simp] theorem heading_begins (t : Token) (power : Power) :
    (ofDispatch (.begins t power)).heading = "nud" := by
  simp [heading, ofDispatch]

@[simp] theorem heading_continues (t : Token) (power : Power) :
    (ofDispatch (.continues t power)).heading = "led" := by
  simp [heading, ofDispatch]

theorem heading_ofResult (result : Except Fault Expr) :
    (ofResult result).heading = "parsed" ∨ (ofResult result).heading = "parse" := by
  cases result with
  | ok e => exact .inl (by simp [heading, ofResult])
  | error fault => exact .inr (by simp [heading, ofResult])

/-- The kind of the token is the second word, but for two kinds that are not written. -/
theorem subject_begins (t : Token) (power : Power) :
    (ofDispatch (.begins t power)).subject = "OpenParen" ↔ t.kind = .openParen := by
  cases hk : t.kind <;>
    simp [subject, ofDispatch, Token.display, hk, TokenKind.name]

theorem isRule_ofDispatch (d : Dispatch) : (ofDispatch d).isRule = true := by
  cases d <;> simp [isRule]

theorem isOpening_ofDispatch (d : Dispatch) : (ofDispatch d).isOpening = opensGroup d.entry := by
  cases d with
  | begins t power =>
    have hopening : (ofDispatch (.begins t power)).isOpening = true ↔ t.kind = .openParen := by
      simp [isOpening, subject_begins]
    exact Bool.eq_iff_iff.mpr (hopening.trans decide_eq_true_iff.symm)
  | continues t power => simp [isOpening, opensGroup, Dispatch.entry]

end Headings

end LogRecord

theorem map_ofEmission {found : List Emission} (h : faultsOf found = []) :
    found.map LogRecord.ofEmission = (tokensOf found).map LogRecord.ofToken := by
  induction found with
  | nil => rfl
  | cons emission found ih =>
    cases emission with
    | fault fault => cases h
    | token t =>
      rw [List.map_cons, ih h]
      rfl

/-! ## Logs -/

theorem parseLog_eq (h : faultsOf (scan source) = []) :
    parseLog maxDepth source = [⟨.debug, "parsing " ++ quoted source⟩] ++
      ((tokensOf (scan source)).map LogRecord.ofToken ++
        ([LogRecord.ofCount (tokensOf (scan source)).length] ++
          ((runTokens .arithmetic maxDepth (tokensOf (scan source))).dispatches.map
              LogRecord.ofDispatch ++
            [LogRecord.ofResult (parseWithin maxDepth source)]))) := by
  have hparse : parseWithin maxDepth source =
      (runTokens .arithmetic maxDepth (tokensOf (scan source))).result := by
    rw [parseWithin, tokenize, h]
    rfl
  unfold parseLog
  dsimp only
  rw [h, map_ofEmission h, hparse]
  rfl

section Logs

variable (h : faultsOf (scan source) = []) (maxDepth)

include h

/-- Records that are sought between the first and the last are those of tokens, of their number and
of rules. -/
theorem filter_parseLog {sought : LogRecord → Bool} (hsought : ∀ r, sought r = true →
      r.heading ≠ "parsing" ∧ r.heading ≠ "parsed" ∧ r.heading ≠ "parse") :
    (parseLog maxDepth source).filter sought =
      ((tokensOf (scan source)).map LogRecord.ofToken).filter sought ++
        ([LogRecord.ofCount (tokensOf (scan source)).length].filter sought ++
          ((runTokens .arithmetic maxDepth (tokensOf (scan source))).dispatches.map
            LogRecord.ofDispatch).filter sought) := by
  have hfirst : [⟨.debug, "parsing " ++ quoted source⟩].filter sought = [] := by
    refine List.filter_eq_nil_iff.mpr (List.forall_mem_singleton.mpr fun hr => ?_)
    exact (hsought _ hr).1 (LogRecord.heading_parsing _ _)
  have hlast : [LogRecord.ofResult (parseWithin maxDepth source)].filter sought = [] := by
    refine List.filter_eq_nil_iff.mpr (List.forall_mem_singleton.mpr fun hr => ?_)
    rcases LogRecord.heading_ofResult (parseWithin maxDepth source) with hheading | hheading
    · exact (hsought _ hr).2.1 hheading
    · exact (hsought _ hr).2.2 hheading
  rw [parseLog_eq h]
  simp only [List.filter_append, hfirst, hlast, List.nil_append, List.append_nil]

theorem filter_token : (parseLog maxDepth source).filter (·.heading = "token") =
    (tokensOf (scan source)).map LogRecord.ofToken := by
  have hrule : ∀ d, (LogRecord.ofDispatch d).heading ≠ "token" := by
    rintro (_ | _) <;> simp
  rw [filter_parseLog maxDepth h (by simp +contextual)]
  simp [List.filter_map, Function.comp_def, hrule]

theorem filter_tokenized : (parseLog maxDepth source).filter (·.heading = "tokenized") =
    [LogRecord.ofCount (tokensOf (scan source)).length] := by
  have hrule : ∀ d, (LogRecord.ofDispatch d).heading ≠ "tokenized" := by
    rintro (_ | _) <;> simp
  rw [filter_parseLog maxDepth h (by simp +contextual)]
  simp [List.filter_map, Function.comp_def, hrule]

theorem filter_isRule : (parseLog maxDepth source).filter (·.isRule) =
    (runTokens .arithmetic maxDepth (tokensOf (scan source))).dispatches.map
      LogRecord.ofDispatch := by
  have hother : ∀ r : LogRecord, r.heading = "token" ∨ r.heading = "tokenized" →
      r.isRule = false := by
    rintro r (hr | hr) <;> simp [LogRecord.isRule, hr]
  have hsought : ∀ r : LogRecord, r.isRule = true →
      r.heading ≠ "parsing" ∧ r.heading ≠ "parsed" ∧ r.heading ≠ "parse" := by
    intro r hr
    rw [LogRecord.isRule, Bool.or_eq_true, decide_eq_true_eq, decide_eq_true_eq] at hr
    rcases hr with hr | hr <;> simp [hr]
  rw [filter_parseLog maxDepth h hsought]
  simp [List.filter_map, Function.comp_def, LogRecord.isRule_ofDispatch,
    hother _ (.inl (LogRecord.heading_ofToken _)), hother _ (.inr (LogRecord.heading_ofCount _))]

/-- Records of openings are records of rules. -/
theorem length_filter_isOpening : ((parseLog maxDepth source).filter (·.isOpening)).length =
    (runTokens .arithmetic maxDepth (tokensOf (scan source))).dispatches.countP
      (opensGroup ·.entry) := by
  have hboth : ∀ r : LogRecord, (r.isOpening && r.isRule) = r.isOpening := by
    intro r
    unfold LogRecord.isOpening LogRecord.isRule
    cases decide (r.heading = "nud") <;> simp
  have hfilter : (parseLog maxDepth source).filter (·.isOpening) =
      ((parseLog maxDepth source).filter (·.isRule)).filter (·.isOpening) := by
    simp only [List.filter_filter, hboth]
  rw [hfilter, filter_isRule maxDepth h, ← List.countP_eq_length_filter, List.countP_map]
  simp only [Function.comp_def, LogRecord.isOpening_ofDispatch]

end Logs

/-- What is taken from a row in order stands at places of the row that lie in order. -/
theorem exists_places_of_sublist {α : Type} {l row : List α} (h : l.Sublist row) :
    ∃ places : List Nat, places.Pairwise (· < ·) ∧
      List.Forall₂ (fun i a => row[i]? = some a) places l := by
  induction h with
  | slnil => exact ⟨[], .nil, .nil⟩
  | @cons l row a _ ih =>
    obtain ⟨places, hplaces, hall⟩ := ih
    refine ⟨places.map (· + 1), ?_, List.forall₂_map_left_iff.mpr hall⟩
    exact List.pairwise_map.mpr (hplaces.imp Nat.succ_lt_succ)
  | @cons_cons l row a _ ih =>
    obtain ⟨places, hplaces, hall⟩ := ih
    refine ⟨0 :: places.map (· + 1), List.pairwise_cons.mpr ⟨?_, ?_⟩,
      .cons rfl (List.forall₂_map_left_iff.mpr hall)⟩
    · intro i hi
      obtain ⟨j, -, rfl⟩ := List.mem_map.mp hi
      exact Nat.succ_pos j
    · exact List.pairwise_map.mpr (hplaces.imp Nat.succ_lt_succ)

/-- What the records of a log tell of scanning, of the rules and of the nodes agrees. -/
structure LogAccounts (maxDepth : Nat) (source : String) : Prop where
  /-- The tokens are recorded as they were found. -/
  tokens : (parseLog maxDepth source).filter (·.heading = "token") =
    (tokensOf (scan source)).map LogRecord.ofToken
  /-- Their number is recorded once. -/
  tokenized : (parseLog maxDepth source).filter (·.heading = "tokenized") =
    [.ofCount ((parseLog maxDepth source).filter (·.heading = "token")).length]
  /-- The rules are those of tokens in order, of each at most once. -/
  rules : ∃ places : List Nat, places.Pairwise (· < ·) ∧
    List.Forall₂ (fun i r => ∃ t, (tokensOf (scan source))[i]? = some t ∧ LogRecord.Names r t)
      places ((parseLog maxDepth source).filter (·.isRule))
  /-- In an accepted text that is not blank no other tokens are left out than commas, closing
  parentheses and the end. -/
  named : ∀ e, parseWithin maxDepth source = .ok e → ¬ IsGap source.toList [] →
    List.Forall₂ (fun t r => LogRecord.Names r t)
      ((tokensOf (scan source)).filter fun t => !t.isOneOf [.comma, .closeParen, .eof])
      ((parseLog maxDepth source).filter (·.isRule))
  /-- And the last record tells how many rules made a node. -/
  nodes : ∀ e, parseWithin maxDepth source = .ok e → ¬ IsGap source.toList [] →
    ∃ k, (parseLog maxDepth source).getLast? = some (.ofNodes k) ∧
      k + ((parseLog maxDepth source).filter (·.isOpening)).length =
        ((parseLog maxDepth source).filter (·.isRule)).length

/-- The log of a text without lexical fault accounts for the parse. -/
theorem logAccounts (h : faultsOf (scan source) = []) (maxDepth : Nat) :
    LogAccounts maxDepth source := by
  have hnonempty : ∀ e, parseWithin maxDepth source = .ok e → ¬ IsGap source.toList [] →
      e ≠ .empty := by
    rintro e he hgap rfl
    exact hgap (isGap_of_parseWithin he)
  refine ⟨filter_token maxDepth h, ?_, ?_, fun e he hgap => ?_, fun e he hgap => ?_⟩
  · rw [filter_tokenized maxDepth h, filter_token maxDepth h, List.length_map]
  · have hinOrder : (runTokens .arithmetic maxDepth (tokensOf (scan source))).InOrder
        (.ofList (tokensOf (scan source))) 1 := inOrder_of_pays (Parser.pays_whole_arithmetic rfl)
    have hsub : ((runTokens .arithmetic maxDepth (tokensOf (scan source))).dispatches.map
        Dispatch.token).Sublist (tokensOf (scan source)) := by
      conv_rhs => rw [← tokens_ofList_scan source]
      exact hinOrder
    obtain ⟨places, hplaces, hall⟩ := exists_places_of_sublist hsub
    refine ⟨places, hplaces, ?_⟩
    rw [List.forall₂_map_right_iff] at hall
    rw [filter_isRule maxDepth h, List.forall₂_map_right_iff]
    exact hall.imp fun i d hd => ⟨d.token, hd, LogRecord.names_ofDispatch d⟩
  · obtain ⟨htokens, -⟩ := applied_of_parseWithin he (hnonempty e he hgap)
    unfold Token.isApplied at htokens
    rw [filter_isRule maxDepth h, ← htokens, List.forall₂_map_left_iff, List.forall₂_map_right_iff]
    exact List.forall₂_same.mpr fun d _ => LogRecord.names_ofDispatch d
  · obtain ⟨-, hcount⟩ := applied_of_parseWithin he (hnonempty e he hgap)
    refine ⟨e.count, ?_, ?_⟩
    · rw [parseLog_eq h, he]
      simp only [← List.append_assoc, List.getLast?_concat]
      rfl
    · rw [length_filter_isOpening maxDepth h, filter_isRule maxDepth h, List.length_map]
      exact hcount

set_option maxRecDepth 2000 in
/-- The call `f((a))` has three nodes, and its log has records of four rules. -/
theorem logAccounts_call : faultsOf (scan "f((a))") = [] ∧ LogAccounts 9 "f((a))" ∧
    parseWithin 9 "f((a))" =
      .ok (.call (.identifier "f" ⟨1, 1⟩) [.identifier "a" ⟨1, 4⟩] ⟨1, 2⟩) ∧
    ¬ IsGap "f((a))".toList [] ∧ ((parseLog 9 "f((a))").filter (·.isRule)).length = 4 := by
  have h : faultsOf (scan "f((a))") = [] := by cbv
  have hparse : parseWithin 9 "f((a))" =
      .ok (.call (.identifier "f" ⟨1, 1⟩) [.identifier "a" ⟨1, 4⟩] ⟨1, 2⟩) := by cbv
  refine ⟨h, logAccounts h 9, hparse, fun hgap => ?_, by decide +kernel⟩
  rw [parseWithin_of_isGap hgap (by decide)] at hparse
  cases hparse

end Precedence

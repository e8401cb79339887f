import Precedence.Proofs.Insertion
import Precedence.Proofs.Numbers
import Precedence.Proofs.Source

/-!
# Reading the notation with operators in front

The line an expression is written on, with every operator before its operands, tells the expression
but for the places, if the expression is what a text was parsed as and all its numbers are finite
(`placeless_eq_of_text_eq`). Infinity is the exception: it is written as the name `inf` is.

Nothing in the notation says how many operands an operator has, and one sign stands for an operator
with one operand and with two. But the parts of a node stand each behind a space and the last in
front of a parenthesis, and in a number or a name there is neither. So it is told where each part
ends (`OneReading`), and a node is told by the word behind its parenthesis and by its parts.
-/

namespace Precedence

variable {source : String} {maxDepth : Nat} {kind : TokenKind} {word rest rest' : List Char}

/-! ## What a text is parsed as can be written -/

theorem Divides.isWord_of_mem {text : List Char} {segments : List Segment}
    (h : Divides text segments) :
    ∀ s ∈ segments, s.kind = .eof ∨ s.kind = .error ∨ s.kind.IsWord s.word := by
  induction h with
  | last => exact List.forall_mem_singleton.mpr (.inl rfl)
  | @segment s _ _ _ _ _ hword _ ih =>
    obtain ⟨gap, kind, word⟩ := s
    refine List.forall_mem_cons.mpr ⟨?_, ih⟩
    cases hword with
    | word hword => exact .inr (.inr hword)
    | stray => exact .inr (.inl rfl)

/-- The token is written with a word of its kind, or is one nobody wrote. -/
def Token.IsSpelled (t : Token) : Prop := t.kind = .implicitStar ∨ t.kind.IsWord t.text.toList

/-- Among the tokens of a text those that stand for something are spelled as their kind is. -/
theorem isSpelled_of_isProper {t : Token} (ht : t ∈ tokensOf (scan source)) (hproper : t.IsProper) :
    t.IsSpelled := by
  obtain ⟨segments, h⟩ := exists_divides source.toList
  rw [tokensOf_scan_of_divides h] at ht
  by_cases hstar : t.kind = .implicitStar
  · exact .inl hstar
  have hwritten : t ∈ withoutSigns (dividedTokens .eof .origin segments) :=
    List.mem_filter.mpr ⟨ht, decide_eq_true hstar⟩
  have hword := List.mem_map_of_mem (f := fun t : Token => (t.kind, t.text)) hwritten
  rw [words_dividedTokens h.kind_ne_implicitStar] at hword
  obtain ⟨s, hs, heq⟩ := List.mem_map.mp hword
  obtain ⟨hkind, htext⟩ := Prod.mk.inj heq
  rcases h.isWord_of_mem s hs with heof | herror | hword
  · exact absurd (hkind.symm.trans heof) hproper.1
  · exact absurd (hkind.symm.trans herror) hproper.2
  · rw [Token.IsSpelled, ← hkind, ← htext, String.toList_ofList]
    exact .inr hword

theorem isWritable_node {level : Level} {operator : Operator} {left right : Expr} {t : Token}
    (hk : t.kind ∈ level.operators) (hop : Operator.ofKind? t.kind = some operator)
    (hl : left.isWritable = true) (hr : right.isWritable = true) :
    (level.node operator left right t.start).isWritable = true := by
  cases level with
  | juxtaposition =>
    rw [List.mem_singleton.mp hk] at hop
    cases hop
    simp [Level.node, Expr.isWritable, hl, hr]
  | _ => simp [Level.node, Expr.isWritable, hl, hr]

mutual

/-- An expression of spelled tokens is one that arithmetic has a text for, if its numbers are
finite. -/
theorem Derives.isWritable : ∀ {level ts e}, Derives level ts e → (∀ t ∈ ts, t.IsSpelled) →
    (∀ n ∈ e.numbers, n.1.isFinite = true) → e.isWritable = true
  | _, _, _, .tighter _ he, hts, hfinite => he.isWritable hts hfinite
  | _, _, _, .operation hk hop hl hr, hts, hfinite => by
      rw [numbers_node] at hfinite
      obtain ⟨hfinite, hfinite'⟩ := List.forall_mem_append.mp hfinite
      obtain ⟨hts, hus⟩ := List.forall_mem_append.mp hts
      exact isWritable_node hk hop (hl.isWritable hts hfinite)
        (hr.isWritable (List.forall_mem_cons.mp hus).2 hfinite')
  | _, _, _, .signed hk hop he, hts, hfinite => by
      have hoperand := he.isWritable (List.forall_mem_cons.mp hts).2 hfinite
      rcases hk with hk | hk <;> rw [hk] at hop <;> cases hop <;>
        simp [Expr.isWritable, hoperand]
  | _, _, _, .number (t := t) hk hv, hts, hfinite => by
      have hword := hts t (.head _)
      rw [Token.IsSpelled, hk] at hword
      obtain ⟨m, hread, -⟩ := (hword.resolve_left (by decide)).exists_read
      cases Option.some.inj (hv.symm.trans hread)
      exact hfinite _ (.head _)
  | _, _, _, .identifier (t := t) hk, hts, _ => by
      have hword := hts t (.head _)
      rw [Token.IsSpelled, hk] at hword
      exact hword.resolve_left (by decide)
  | _, _, _, .group _ he _, hts, hfinite =>
      he.isWritable (List.forall_mem_append.mp (List.forall_mem_cons.mp hts).2).1 hfinite
  | _, _, _, .emptyCall hf hname _ _, hts, hfinite => by
      rw [Expr.numbers_call] at hfinite
      have hcallee := hf.isWritable (List.forall_mem_append.mp hts).1
        (List.forall_mem_append.mp hfinite).1
      simp [Expr.isWritable, Expr.allWritable, hname, hcallee]
  | _, _, _, .call hf hname _ hes _, hts, hfinite => by
      rw [Expr.numbers_call] at hfinite
      obtain ⟨hfinite, hfinite'⟩ := List.forall_mem_append.mp hfinite
      obtain ⟨hts, hus⟩ := List.forall_mem_append.mp hts
      have hcallee := hf.isWritable hts hfinite
      have harguments := hes.allWritable
        (List.forall_mem_append.mp (List.forall_mem_cons.mp hus).2).1 hfinite'
      simp [Expr.isWritable, hname, hcallee, harguments]

theorem DerivesArguments.allWritable : ∀ {ts es}, DerivesArguments ts es →
    (∀ t ∈ ts, t.IsSpelled) →
    (∀ n ∈ (Expr.walkAll es).filterMap Expr.number?, n.1.isFinite = true) →
      Expr.allWritable es = true
  | _, _, .last he, hts, hfinite => by
      rw [Expr.walkAll, Expr.walkAll, List.append_nil] at hfinite
      simp [Expr.allWritable, he.isWritable hts hfinite]
  | _, _, .cons he _ hes, hts, hfinite => by
      rw [Expr.walkAll, List.filterMap_append] at hfinite
      obtain ⟨hfinite, hfinite'⟩ := List.forall_mem_append.mp hfinite
      obtain ⟨hts, hus⟩ := List.forall_mem_append.mp hts
      rw [Expr.allWritable, he.isWritable hts hfinite,
        hes.allWritable (List.forall_mem_cons.mp hus).2 hfinite', Bool.and_self]

end

/-- What a text is parsed as is no expression at all, or one that can be written, if its numbers are
finite. -/
theorem isWritable_of_parseWithin {e : Expr} (h : parseWithin maxDepth source = .ok e)
    (hfinite : ∀ n ∈ e.numbers, n.1.isFinite = true) : e = .empty ∨ e.isWritable = true := by
  obtain ⟨row, p, hrow, ⟨-, rfl⟩ | he⟩ := derives_of_parseWithin h
  · exact .inl rfl
  · refine .inr (he.isWritable (fun t ht => ?_) hfinite)
    exact isSpelled_of_isProper (hrow ▸ List.mem_append_left _ ht) (he.isProper t ht)

/-! ## Words -/

/-- Characters with which no word of the notation goes on. -/
def endsWord (c : Char) : Bool := c = ' ' || c = '(' || c = ')'

/-- The characters go on with no word, and begin no node. -/
def Closes (rest : List Char) : Prop := ∀ c ∈ rest.head?, c = ' ' ∨ c = ')'

theorem Closes.endsWord (h : Closes rest) : ∀ c ∈ rest.head?, endsWord c = true := fun c hc => by
  rcases h c hc with rfl | rfl <;> rfl

theorem endsWord_eq_false_of_isWord (h : kind.IsWord word) (hopen : kind ≠ .openParen)
    (hclose : kind ≠ .closeParen) : ∀ c ∈ word, endsWord c = false := by
  intro c hc
  have hspace := (ne_of_isWord h c hc).1
  have hother : c ≠ '(' := by
    rintro rfl
    exact hopen (kind_unique_of_isWord h (solitary_openParen kind word h hc))
  have hother' : c ≠ ')' := by
    rintro rfl
    exact hclose (kind_unique_of_isWord h (solitary_closeParen kind word h hc))
  simp [Precedence.endsWord, hspace, hother, hother']

/-! ## Nodes -/

namespace Expr

variable {e e' : Expr} {es : List Expr}

/-- The word behind the parenthesis of a node that has parts. -/
def heading : Expr → String
  | unary operator _ _ => operator.symbol
  | binary operator _ _ _ => operator.symbol
  | juxtaposed operator _ _ => operator.symbol ++ "'"
  | call _ _ _ => "call"
  | _ => ""

/-- The expressions that stand behind the word, in order. -/
def parts : Expr → List Expr
  | unary _ operand _ => [operand]
  | binary _ left right _ => [left, right]
  | juxtaposed _ left right => [left, right]
  | call callee arguments _ => callee :: arguments
  | _ => []

/-- Induction over an expression by its parts. -/
@[elab_as_elim]
theorem inductionOnParts {P : Expr → Prop} (e : Expr) (step : ∀ e, (∀ a ∈ e.parts, P a) → P e) :
    P e := by
  induction e using inductionOn with
  | empty | number | identifier => exact step _ nofun
  | unary o x p hx => exact step _ (by simpa [parts] using hx)
  | binary o l r p hl hr => exact step _ (by simpa [parts] using ⟨hl, hr⟩)
  | juxtaposed o l r hl hr => exact step _ (by simpa [parts] using ⟨hl, hr⟩)
  | call f es p hf hes => exact step _ (List.forall_mem_cons.mpr ⟨hf, hes⟩)

theorem toList_argumentsText_cons (e : Expr) (es : List Expr) :
    (argumentsText (e :: es)).toList = ' ' :: (e.text.toList ++ (argumentsText es).toList) := by
  simp [argumentsText]

/-- Nodes with parts are all written in one way. -/
theorem toList_text_of_parts (h : e.parts ≠ []) :
    e.text.toList = '(' :: (e.heading.toList ++ ((argumentsText e.parts).toList ++ [')'])) := by
  cases e <;> simp [text, argumentsText, heading, parts] at h ⊢

theorem endsWord_heading (e : Expr) : ∀ c ∈ e.heading.toList, endsWord c = false := by
  cases e with
  | unary operator | binary operator | juxtaposed operator =>
    cases operator <;> simp [heading, Operator.symbol, endsWord]
  | _ => simp [heading, endsWord]

/-- The word tells an operator, whether the node has a place, and calls from the rest; the number
of parts tells a sign from an operation. -/
theorem placeless_eq_of_parts (h : e.parts ≠ []) (h' : e'.parts ≠ [])
    (hheading : e.heading = e'.heading) (hparts : allPlaceless e.parts = allPlaceless e'.parts) :
    e.placeless = e'.placeless := by
  have hstroke : ∀ a b : Operator, a.symbol ≠ b.symbol ++ "'" := by
    intro a b
    cases a <;> cases b <;> decide
  have hcall : ∀ a : Operator, a.symbol ≠ "call" ∧ a.symbol ++ "'" ≠ "call" := by
    intro a
    cases a <;> decide
  cases e with
  | empty | number | identifier => exact absurd rfl h
  | unary o x p =>
    cases e' with
    | empty | number | identifier => exact absurd rfl h'
    | unary o' x' p' =>
      obtain ⟨hx, -⟩ := List.cons.inj hparts
      rw [placeless, placeless, Operator.symbol_injective hheading, hx]
    | binary | juxtaposed => cases (List.cons.inj hparts).2
    | call => exact absurd hheading (hcall o).1
  | binary o l r p =>
    cases e' with
    | empty | number | identifier => exact absurd rfl h'
    | unary => cases (List.cons.inj hparts).2
    | binary o' l' r' p' =>
      obtain ⟨hl, hparts⟩ := List.cons.inj hparts
      obtain ⟨hr, -⟩ := List.cons.inj hparts
      rw [placeless, placeless, Operator.symbol_injective hheading, hl, hr]
    | juxtaposed o' => exact absurd hheading (hstroke o o')
    | call => exact absurd hheading (hcall o).1
  | juxtaposed o l r =>
    cases e' with
    | empty | number | identifier => exact absurd rfl h'
    | unary => cases (List.cons.inj hparts).2
    | binary o' => exact absurd hheading.symm (hstroke o' o)
    | juxtaposed o' l' r' =>
      obtain ⟨hl, hparts⟩ := List.cons.inj hparts
      obtain ⟨hr, -⟩ := List.cons.inj hparts
      have hsymbol : o.symbol = o'.symbol := String.append_left_inj "'" |>.mp hheading
      rw [placeless, placeless, Operator.symbol_injective hsymbol, hl, hr]
    | call => exact absurd hheading (hcall o).2
  | call f es p =>
    cases e' with
    | empty | number | identifier => exact absurd rfl h'
    | unary o' | binary o' => exact absurd hheading.symm (hcall o').1
    | juxtaposed o' => exact absurd hheading.symm (hcall o').2
    | call f' es' p' =>
      obtain ⟨hf, hes⟩ := List.cons.inj hparts
      rw [placeless, placeless, hf, hes]

theorem allWritable_parts (h : e.isWritable = true) : allWritable e.parts = true := by
  cases e <;> simp_all [isWritable, parts, allWritable]

/-- An expression without parts is a finite number without a sign, or a name. -/
theorem word_cases (h : e.isWritable = true) (hparts : e.parts = []) :
    (∃ m p, e = .number (.signed false m) p ∧ m.isFinite = true) ∨
      ∃ name p, e = .identifier name p ∧ isName name.toList = true := by
  cases e with
  | empty => cases h
  | number value position =>
    cases value with
    | nan => cases h
    | signed negative m =>
      cases negative with
      | true => cases h
      | false => exact .inl ⟨m, position, rfl, h⟩
  | identifier name position => exact .inr ⟨name, position, rfl, h⟩
  | _ => cases hparts

theorem isWord_text_number {m : Magnitude} {p : Position} (hfinite : m.isFinite = true) :
    TokenKind.number.IsWord (number (.signed false m) p).text.toList := by
  rw [text, Binary64.text, if_neg Bool.false_ne_true, String.toList_ofList]
  exact (Magnitude.isNumeral_text_and_read hfinite).1

/-- An expression without parts is written with one word. -/
theorem isWord_text (h : e.isWritable = true) (hparts : e.parts = []) :
    ∃ kind, kind ≠ .openParen ∧ kind ≠ .closeParen ∧ TokenKind.IsWord kind e.text.toList := by
  obtain ⟨m, p, rfl, hfinite⟩ | ⟨name, p, rfl, hname⟩ := word_cases h hparts
  · exact ⟨.number, nofun, nofun, isWord_text_number hfinite⟩
  · exact ⟨.identifier, nofun, nofun, hname⟩

/-- The word is a number or a name, and a number is read back from its digits. -/
theorem placeless_eq_of_word (h : e.isWritable = true) (h' : e'.isWritable = true)
    (hparts : e.parts = []) (hparts' : e'.parts = []) (htext : e.text = e'.text) :
    e.placeless = e'.placeless := by
  obtain ⟨m, p, rfl, hfinite⟩ | ⟨name, p, rfl, hname⟩ := word_cases h hparts <;>
    obtain ⟨m', p', rfl, hfinite'⟩ | ⟨name', p', rfl, hname'⟩ := word_cases h' hparts'
  · have hread := Binary64.ofString?_text hfinite
    rw [text, text] at htext
    rw [htext, Binary64.ofString?_text hfinite'] at hread
    rw [placeless, placeless, Option.some.inj hread]
  · have hword := @isWord_text_number _ p hfinite
    rw [htext] at hword
    cases kind_unique_of_isWord hword (k := .identifier) hname'
  · have hword := @isWord_text_number _ p' hfinite'
    rw [← htext] at hword
    cases kind_unique_of_isWord hword (k := .identifier) hname
  · rw [text, text] at htext
    rw [placeless, placeless, htext]

end Expr

/-! ## Reading -/

section Reading

variable {e e' : Expr} {es es' : List Expr}

/-- Before what closes it the text of the expression is that of no other one, places apart. -/
def OneReading (e : Expr) : Prop :=
  ∀ ⦃e' : Expr⦄ ⦃rest rest' : List Char⦄, e'.isWritable = true → Closes rest → Closes rest' →
    e.text.toList ++ rest = e'.text.toList ++ rest' → e.placeless = e'.placeless ∧ rest = rest'

theorem closes_argumentsText (es : List Expr) (rest : List Char) :
    Closes ((Expr.argumentsText es).toList ++ ')' :: rest) := by
  intro c hc
  cases es with
  | nil =>
    cases hc
    exact .inr rfl
  | cons a es =>
    rw [Expr.toList_argumentsText_cons] at hc
    cases hc
    exact .inl rfl

/-- Parts of which each has one reading are read together in one way, up to the parenthesis. -/
theorem oneReading_parts (h : ∀ a ∈ es, OneReading a) (hes' : Expr.allWritable es' = true)
    (htext : (Expr.argumentsText es).toList ++ ')' :: rest =
      (Expr.argumentsText es').toList ++ ')' :: rest') :
    Expr.allPlaceless es = Expr.allPlaceless es' ∧ rest = rest' := by
  induction es generalizing es' with
  | nil =>
    cases es' with
    | nil => exact ⟨rfl, (List.cons.inj htext).2⟩
    | cons a' es' =>
      rw [Expr.toList_argumentsText_cons] at htext
      cases (List.cons.inj htext).1
  | cons a es ih =>
    rw [Expr.toList_argumentsText_cons] at htext
    cases es' with
    | nil => cases (List.cons.inj htext).1
    | cons a' es' =>
      obtain ⟨ha, hes⟩ := List.forall_mem_cons.mp h
      obtain ⟨ha', hes'⟩ := Bool.and_eq_true_iff.mp hes'
      simp only [Expr.toList_argumentsText_cons, List.cons_append, List.append_assoc,
        List.cons.injEq, true_and] at htext
      obtain ⟨hfirst, htext⟩ :=
        ha ha' (closes_argumentsText es rest) (closes_argumentsText es' rest') htext
      obtain ⟨hothers, hrest⟩ := ih hes hes' htext
      exact ⟨by rw [Expr.allPlaceless, Expr.allPlaceless, hfirst, hothers], hrest⟩

/-- A word is no node with parts: that begins with a parenthesis. -/
theorem word_ne_parts (h : e.isWritable = true) (hparts : e.parts = []) (hparts' : e'.parts ≠ []) :
    e.text.toList ++ rest ≠ e'.text.toList ++ rest' := by
  obtain ⟨kind, hopen, hclose, hword⟩ := Expr.isWord_text h hparts
  obtain ⟨c, tail, hcons, -⟩ := exists_cons_of_isWord hword
  have hc := endsWord_eq_false_of_isWord hword hopen hclose c (hcons ▸ .head _)
  rw [hcons, Expr.toList_text_of_parts hparts']
  intro heq
  obtain rfl := (List.cons.inj heq).1
  cases hc

/-- By induction on the parts: a word ends where what is behind it begins, and a node where its last
part does. -/
theorem oneReading (e : Expr) : e.isWritable = true → OneReading e := by
  induction e using Expr.inductionOnParts with
  | step e ih =>
    intro h e' rest rest' h' hrest hrest' htext
    by_cases hparts : e.parts = []
    · by_cases hparts' : e'.parts = []
      · obtain ⟨_, hopen, hclose, hword⟩ := Expr.isWord_text h hparts
        obtain ⟨_, hopen', hclose', hword'⟩ := Expr.isWord_text h' hparts'
        have hsame := eq_of_stops endsWord (endsWord_eq_false_of_isWord hword hopen hclose)
          hrest.endsWord (endsWord_eq_false_of_isWord hword' hopen' hclose') hrest'.endsWord htext
        rw [hsame] at htext
        exact ⟨Expr.placeless_eq_of_word h h' hparts hparts' (String.toList_injective hsame),
          List.append_cancel_left htext⟩
      · exact absurd htext (word_ne_parts h hparts hparts')
    · by_cases hparts' : e'.parts = []
      · exact absurd htext.symm (word_ne_parts h' hparts' hparts)
      · rw [Expr.toList_text_of_parts hparts, Expr.toList_text_of_parts hparts'] at htext
        simp only [List.cons_append, List.append_assoc, List.nil_append, List.cons.injEq,
          true_and] at htext
        have hsame := eq_of_stops endsWord e.endsWord_heading
          (closes_argumentsText e.parts rest).endsWord e'.endsWord_heading
          (closes_argumentsText e'.parts rest').endsWord htext
        rw [hsame] at htext
        obtain ⟨hall, hrest⟩ := oneReading_parts
          (fun a ha => ih a ha (Expr.isWritable_of_mem (Expr.allWritable_parts h) ha))
          (Expr.allWritable_parts h') (List.append_cancel_left htext)
        exact ⟨Expr.placeless_eq_of_parts hparts hparts' (String.toList_injective hsame) hall,
          hrest⟩

/-- An expression that can be written is not written as what no token stands for. -/
theorem text_ne_empty (h : e.isWritable = true) : e.text ≠ Expr.empty.text := by
  intro htext
  by_cases hparts : e.parts = []
  · obtain ⟨kind, -, -, hword⟩ := Expr.isWord_text h hparts
    rw [htext] at hword
    obtain ⟨_, hrule⟩ := ruleFor?_of_isWord hword []
    cases hrule
  · have hlist := Expr.toList_text_of_parts hparts
    rw [htext] at hlist
    cases hlist

end Reading

/-- What two texts are parsed as is the same, places apart, if it is written the same with the
operators in front and has finite numbers only. -/
theorem placeless_eq_of_text_eq {source source' : String} {maxDepth maxDepth' : Nat} {e e' : Expr}
    (h : parseWithin maxDepth source = .ok e) (h' : parseWithin maxDepth' source' = .ok e')
    (hfinite : ∀ n ∈ e.numbers, n.1.isFinite = true)
    (hfinite' : ∀ n ∈ e'.numbers, n.1.isFinite = true) (htext : e.text = e'.text) :
    e.placeless = e'.placeless := by
  have hnil : Closes [] := nofun
  rcases isWritable_of_parseWithin h hfinite with rfl | hwritable <;>
    rcases isWritable_of_parseWithin h' hfinite' with rfl | hwritable'
  · rfl
  · exact absurd htext.symm (text_ne_empty hwritable')
  · exact absurd htext (text_ne_empty hwritable)
  · exact (oneReading e hwritable hwritable' hnil hnil (by rw [htext])).1

/-- A call of a name with twice another one, which is written in two ways. -/
theorem placeless_eq_callOfDouble : ∃ e e',
    parseWithin 9 "f(2x)" = .ok e ∧ parseWithin 7 "f((2.0)\n(x))" = .ok e' ∧
      (∀ n ∈ e.numbers, n.1.isFinite = true) ∧ (∀ n ∈ e'.numbers, n.1.isFinite = true) ∧
      e.text = "(call f (*' 2 x))" ∧ e'.text = "(call f (*' 2 x))" ∧
      e.placeless = e'.placeless := by
  have hparse : ∀ {maxDepth source}, (parseWithin maxDepth source).toOption.any (fun e =>
      e.numbers.all (·.1.isFinite) && e.text = "(call f (*' 2 x))") = true →
      ∃ e, parseWithin maxDepth source = .ok e ∧ (∀ n ∈ e.numbers, n.1.isFinite = true) ∧
        e.text = "(call f (*' 2 x))" := by
    intro maxDepth source h
    cases hp : parseWithin maxDepth source with
    | error fault => simp [hp, Except.toOption] at h
    | ok e => exact ⟨e, rfl, by simpa [hp, Except.toOption] using h⟩
  obtain ⟨e, h, hfinite, htext⟩ := @hparse 9 "f(2x)" (by decide +kernel)
  obtain ⟨e', h', hfinite', htext'⟩ := @hparse 7 "f((2.0)\n(x))" (by decide +kernel)
  exact ⟨e, e', h, h', hfinite, hfinite', htext, htext',
    placeless_eq_of_text_eq h h' hfinite hfinite' (htext.trans htext'.symm)⟩

/-- The name `inf` is a name like any other, and it is how infinity is written. -/
example : (Expr.number (.signed false .infinity) .origin).text =
    (Expr.identifier "inf" .origin).text := by decide

end Precedence

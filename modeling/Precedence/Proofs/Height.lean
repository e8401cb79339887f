import Precedence.Proofs.Accepts
import Precedence.Proofs.CutShort
import Precedence.Proofs.Paths
import Precedence.Proofs.Stretch

/-!
# What the limit on nesting bounds

The limit on nesting bounds the paths of an expression but for their left edges, of which there may
be any number. Each level of nesting that is open while a node is read is an edge above it that is
not a left one (`rise_expr`), or a group. Where no group has been opened the levels are just these
edges: a parse under another limit that has room for them reads the same tokens (`again_expr`), and
the least limit under which a row is accepted is one more than the rise of the expression
(`nestingBounds`).

Left edges take no level, since a loop reads what stands left of an operator before it knows of
the operator.
-/

namespace Precedence

theorem InfixRule.rise_node (rule : InfixRule) (operator : Operator) (left right : Expr)
    (position : Position) :
    (rule.node operator left right position).rise = max left.rise (right.rise + 1) := by
  cases rule <;> rfl

namespace Parser

variable {p : Parser} {s t : Progress} {power : Power} {room room' : Nat} {left : Expr}
  {token : Token}

/-! ## Each edge takes a level -/

/-- With so much room nothing is read that rises as far. -/
def RisesBelow (p : Parser) (room : Nat) : Prop :=
  ∀ power s, Ends (p.expr room power) s (fun e _ => e.rise < room) fun _ _ => True

theorem rise_prefixRule (h : p.RisesBelow room) (rule : PrefixRule) :
    Ends (rule.apply p (p.expr room) token) s (fun e _ => e.rise ≤ room) fun _ _ => True := by
  rw [ends_prefixRule]
  cases rule with
  | operand =>
    refine ends_settle_of (fun e he => ?_) fun _ => trivial
    unfold operandOf at he
    split at he
    · split at he <;> cases he
      exact Nat.zero_le _
    · cases he
      exact Nat.zero_le _
    · cases he
  | endOfInput =>
    refine ends_settle_of (fun e he => ?_) fun _ => trivial
    unfold nothingBefore at he
    split at he <;> cases he
    exact Nat.zero_le _
  | sign => exact ends_settle_of (fun _ _ => (h _ _).imp_good fun _ _ hx => hx) fun _ => trivial
  | group =>
    refine (h _ _).imp_good fun e t he => ?_
    split
    · exact Nat.le_of_lt he
    · trivial

theorem rise_arguments (h : p.RisesBelow room) :
    Ends (p.argumentsOrNone (p.expr room .default)) s (fun es _ => Expr.riseAll es ≤ room)
      fun _ _ => True := by
  have hnext : ∀ (done : List Expr) (e : Expr), Expr.riseAll done ≤ room → e.rise < room →
      Expr.riseAll (done ++ [e]) ≤ room := fun done e hdone he =>
    Expr.riseAll_le_iff.mpr (List.forall_mem_append.mpr
      ⟨Expr.riseAll_le_iff.mp hdone, List.forall_mem_singleton.mpr he⟩)
  rw [ends_argumentsOrNone]
  split
  · exact Nat.zero_le _
  · refine ends_arguments (forward_expr p room .default) (Nat.zero_le _) (fun _ _ _ _ => trivial)
      fun done t (hdone : Expr.riseAll done ≤ room) _ => ?_
    refine (h _ _).imp_good fun e u he => ?_
    split
    · exact hnext done e hdone he
    · exact hnext done e hdone he
    all_goals trivial

theorem rise_infixRule (h : p.RisesBelow room) (hleft : left.rise ≤ room) (rule : InfixRule) :
    Ends (rule.apply p (p.expr room) left token) s (fun e _ => e.rise ≤ room) fun _ _ => True := by
  cases hq : rule.rightPower? (p.grammar.power token.kind) with
  | some q =>
    rw [ends_operator hq]
    refine ends_settle_of (fun operator _ => ?_) fun _ => trivial
    refine (h q s).imp_good fun right u hright => ?_
    rw [InfixRule.rise_node]
    exact Nat.max_le.mpr ⟨hleft, hright⟩
  | none =>
    cases rule <;> cases hq
    rw [ends_call]
    refine ends_settle_of (fun _ _ => ?_) fun _ => trivial
    refine (rise_arguments h).imp_good fun es u hes => ?_
    split
    · exact Nat.max_le.mpr ⟨hleft, hes⟩
    · trivial

/-- What is read rises less than there is room. -/
theorem rise_expr (p : Parser) (room : Nat) : p.RisesBelow room := by
  induction room with
  | zero => exact fun power s => ends_expr_zero.mpr trivial
  | succ room ih =>
    intro power s
    have hbegin : Ends (p.beginning (p.expr room) power) { s with depth := s.depth + 1 }
        (fun e _ => e.rise ≤ room) fun _ _ => True := by
      rw [ends_beginning]
      split
      · trivial
      · exact rise_prefixRule ih _
    rw [ends_expr_succ, ends_phrase]
    refine hbegin.imp_good fun left t hleft => ?_
    refine ends_climb (forward_expr p room) (fun e u (he : e.rise ≤ room) _ => Nat.lt_succ_of_le he)
      (fun e u he _ => ?_) hleft
    rw [ends_continuation]
    split
    · trivial
    · exact rise_infixRule ih he _

/-! ## Levels are edges where there are no groups -/

/-- No group has been opened so far. -/
def Ungrouped (p : Parser) (s : Progress) : Prop :=
  ∀ t power, .begins t power ∈ s.trace → p.grammar.prefixRule? t.kind ≠ some .group

theorem Ungrouped.of_noted {dispatch : Dispatch}
    (h : p.Ungrouped (noted dispatch (p.advanced s))) : p.Ungrouped s := by
  intro t power ht
  refine h t power (List.mem_cons_of_mem _ ?_)
  rwa [trace_advanced]

theorem ungrouped_advanced : p.Ungrouped (p.advanced s) ↔ p.Ungrouped s := by
  simp only [Ungrouped, trace_advanced]

theorem eq_ok_iff_ends {α : Type} {m : ParseM α} {a : α} :
    m s = .ok a t ↔ Ends m s (fun b u => b = a ∧ u = t) fun _ _ => False := by
  unfold Ends
  cases m s with
  | ok b u => simp
  | error => simp

/-- What is read with so much room without opening a group is read in the same way with any other
room that it does not fill. -/
def ReadAgain (p : Parser) (room : Nat) : Prop :=
  ∀ room' power s, Ends (p.expr room power) s (fun e t => p.Ungrouped t →
    p.Ungrouped s ∧ (e.rise < room' → p.expr room' power s = .ok e t)) fun _ _ => True

theorem again_prefixRule (h : p.ReadAgain room) (room' : Nat) (rule : PrefixRule) :
    Ends (rule.apply p (p.expr room) token) s (fun e t => p.Ungrouped t → p.Ungrouped s ∧
      (rule ≠ .group → e.rise ≤ room' → rule.apply p (p.expr room') token s = .ok e t))
      fun _ _ => True := by
  rw [ends_prefixRule]
  cases rule with
  | operand =>
    refine ends_settle_of (fun e he hs => ⟨hs, fun _ _ => ?_⟩) fun _ => trivial
    rw [eq_ok_iff_ends, ends_prefixRule, he]
    exact ⟨rfl, rfl⟩
  | endOfInput =>
    refine ends_settle_of (fun e he hs => ⟨hs, fun _ _ => ?_⟩) fun _ => trivial
    rw [eq_ok_iff_ends, ends_prefixRule, he]
    exact ⟨rfl, rfl⟩
  | sign =>
    refine ends_settle_of (fun operator hop => ?_) fun _ => trivial
    refine (h room' _ s).imp_good fun operand t hoperand ht => ?_
    obtain ⟨hs, hagain⟩ := hoperand ht
    refine ⟨hs, fun _ hroom => ?_⟩
    rw [eq_ok_iff_ends, ends_prefixRule, hop]
    exact (ends_of_ok (hagain hroom)).mpr ⟨rfl, rfl⟩
  | group =>
    refine (h room' _ s).imp_good fun inner t hinner => ?_
    split
    · exact fun ht => ⟨(hinner (ungrouped_advanced.mp ht)).1, fun hne => absurd rfl hne⟩
    · trivial

theorem again_arguments (h : p.ReadAgain room) (room' : Nat) :
    Ends (p.arguments (p.expr room .default)) s (fun es t => p.Ungrouped t → p.Ungrouped s ∧
      (Expr.riseAll es ≤ room' → p.arguments (p.expr room' .default) s = .ok es t))
      fun _ _ => True := by
  have hf := forward_expr p room' .default
  -- So long as the arguments read so far fit in, the whole list is read if its rest is.
  let inv (done : List Expr) (t : Progress) : Prop := p.Ungrouped t → p.Ungrouped s ∧
    (Expr.riseAll done ≤ room' → ∀ es u, p.arguments (p.expr room' .default) t = .ok es u →
      p.arguments (p.expr room' .default) s = .ok (done ++ es) u)
  have hstart : inv [] s := fun hs => ⟨hs, fun _ _ _ hes => hes⟩
  refine ends_arguments (forward_expr p room .default) hstart (fun _ _ _ _ => trivial)
    fun done t hdone hd => ?_
  refine (h room' .default t).imp_good fun e u he => ?_
  have hnext : p.Ungrouped u → p.Ungrouped s ∧ (Expr.riseAll (done ++ [e]) ≤ room' →
      ∀ es w, Ends (p.arguments (p.expr room' .default)) t (fun es' w' => es' = e :: es ∧ w' = w)
          (fun _ _ => False) →
        p.arguments (p.expr room' .default) s = .ok (done ++ [e] ++ es) w) := by
    intro hu
    obtain ⟨hs, hdone⟩ := hdone (he hu).1
    refine ⟨hs, fun hroom es w hes => ?_⟩
    have hall := Expr.riseAll_le_iff.mp hroom
    have hfront := Expr.riseAll_le_iff.mpr fun a ha => hall a (List.mem_append_left _ ha)
    rw [List.append_assoc]
    exact hdone hfront (e :: es) w (eq_ok_iff_ends.mpr hes)
  have hread : p.Ungrouped u → Expr.riseAll (done ++ [e]) ≤ room' →
      p.expr room' .default t = .ok e u := fun hu hroom =>
    (he hu).2 (Expr.riseAll_le_iff.mp hroom e (by simp))
  split
  · rename_i hk
    intro hu
    rw [ungrouped_advanced] at hu
    refine ⟨(hnext hu).1, fun hroom es w hes => (hnext hu).2 hroom es w ?_⟩
    rw [ends_arguments_iff hf, if_neg hd, ends_of_ok (hread hu hroom), hk]
    exact (ends_of_ok hes).mpr ⟨rfl, rfl⟩
  · rename_i hk
    intro hu
    refine ⟨(hnext hu).1, fun hroom => ?_⟩
    have hall := (hnext hu).2 hroom [] u
    rw [List.append_nil] at hall
    refine hall ?_
    rw [ends_arguments_iff hf, if_neg hd, ends_of_ok (hread hu hroom), hk]
    exact ⟨rfl, rfl⟩
  all_goals trivial

theorem again_argumentsOrNone (h : p.ReadAgain room) (room' : Nat) :
    Ends (p.argumentsOrNone (p.expr room .default)) s (fun es t => p.Ungrouped t →
      p.Ungrouped s ∧
        (Expr.riseAll es ≤ room' → p.argumentsOrNone (p.expr room' .default) s = .ok es t))
      fun _ _ => True := by
  rw [ends_argumentsOrNone]
  split
  · rename_i hk
    refine fun hs => ⟨hs, fun _ => ?_⟩
    rw [argumentsOrNone, if_pos hk]
  · rename_i hk
    simp only [argumentsOrNone, if_neg hk]
    exact again_arguments h room'

theorem again_infixRule (h : p.ReadAgain room) (room' : Nat) (rule : InfixRule) :
    Ends (rule.apply p (p.expr room) left token) s (fun e t => p.Ungrouped t → p.Ungrouped s ∧
      (e.rise ≤ room' → left.rise ≤ room' ∧ rule.apply p (p.expr room') left token s = .ok e t))
      fun _ _ => True := by
  cases hq : rule.rightPower? (p.grammar.power token.kind) with
  | some q =>
    rw [ends_operator hq]
    refine ends_settle_of (fun operator hop => ?_) fun _ => trivial
    refine (h room' q s).imp_good fun right t hright ht => ?_
    obtain ⟨hs, hagain⟩ := hright ht
    refine ⟨hs, fun hroom => ?_⟩
    rw [InfixRule.rise_node] at hroom
    obtain ⟨hleft, hroom⟩ := Nat.max_le.mp hroom
    refine ⟨hleft, ?_⟩
    rw [eq_ok_iff_ends, ends_operator hq, hop]
    exact (ends_of_ok (hagain hroom)).mpr ⟨rfl, rfl⟩
  | none =>
    cases rule <;> cases hq
    rw [ends_call]
    refine ends_settle_of (fun _ hcallable => ?_) fun _ => trivial
    refine (again_argumentsOrNone h room').imp_good fun es t hes => ?_
    split
    · rename_i hk
      intro ht
      obtain ⟨hs, hagain⟩ := hes (ungrouped_advanced.mp ht)
      refine ⟨hs, fun hroom => ?_⟩
      obtain ⟨hleft, hroom⟩ := Nat.max_le.mp hroom
      refine ⟨hleft, ?_⟩
      rw [eq_ok_iff_ends, ends_call, hcallable]
      refine (ends_of_ok (hagain hroom)).mpr ?_
      rw [if_pos hk]
      exact ⟨rfl, rfl⟩
    · trivial

theorem again_beginning (h : p.ReadAgain room) (room' : Nat) :
    Ends (p.beginning (p.expr room) power) s (fun e t => p.Ungrouped t → p.Ungrouped s ∧
      (e.rise ≤ room' → p.beginning (p.expr room') power s = .ok e t)) fun _ _ => True := by
  rw [ends_beginning]
  split
  · trivial
  · rename_i rule hrule
    refine (again_prefixRule h room' rule).imp_good fun e t he ht => ?_
    obtain ⟨hread, hagain⟩ := he ht
    have hgroup : rule ≠ .group := by
      rintro rfl
      exact hread _ _ (.head _) hrule
    refine ⟨hread.of_noted, fun hroom => ?_⟩
    simp only [beginning, hrule]
    exact hagain hgroup hroom

theorem again_continuation (h : p.ReadAgain room) (room' : Nat) :
    Ends (p.continuation (p.expr room) power left) s (fun e t => p.Ungrouped t → p.Ungrouped s ∧
      (e.rise ≤ room' →
        left.rise ≤ room' ∧ p.continuation (p.expr room') power left s = .ok e t))
      fun _ _ => True := by
  rw [ends_continuation]
  split
  · trivial
  · rename_i rule hrule
    refine (again_infixRule h room' rule).imp_good fun e t he ht => ?_
    obtain ⟨hread, hagain⟩ := he ht
    refine ⟨hread.of_noted, fun hroom => ?_⟩
    simp only [continuation, hrule]
    exact hagain hroom

theorem again_climb (h : p.ReadAgain room) (room' : Nat) :
    Ends (p.climb (p.expr room) power left) s (fun e t => p.Ungrouped t → p.Ungrouped s ∧
      (e.rise ≤ room' → left.rise ≤ room' ∧ p.climb (p.expr room') power left s = .ok e t))
      fun _ _ => True := by
  have hf := forward_expr p room'
  let inv (e : Expr) (t : Progress) : Prop := p.Ungrouped t → p.Ungrouped s ∧ (e.rise ≤ room' →
    left.rise ≤ room' ∧
      p.climb (p.expr room') power left s = p.climb (p.expr room') power e t)
  have hstart : inv left s := fun hs => ⟨hs, fun hroom => ⟨hroom, rfl⟩⟩
  refine ends_climb (forward_expr p room) (fun e t he hlt ht => ?_) (fun e t he hlt => ?_) hstart
  · obtain ⟨hs, hagain⟩ := he ht
    refine ⟨hs, fun hroom => ⟨(hagain hroom).1, ?_⟩⟩
    rw [(hagain hroom).2, climb_eq hf, if_neg hlt]
  · refine (again_continuation h room').imp_good fun whole u hwhole hu => ?_
    obtain ⟨ht, hstep⟩ := hwhole hu
    obtain ⟨hs, hagain⟩ := he ht
    refine ⟨hs, fun hroom => ?_⟩
    obtain ⟨hleft, hread⟩ := hstep hroom
    refine ⟨(hagain hleft).1, ?_⟩
    rw [(hagain hleft).2, climb_eq hf, if_pos hlt, hread]

/-- Without groups, room for the rise is room enough. -/
theorem again_expr (p : Parser) (room : Nat) : p.ReadAgain room := by
  induction room with
  | zero => exact fun _ power s => ends_expr_zero.mpr trivial
  | succ room ih =>
    intro room' power s
    rw [ends_expr_succ, ends_phrase]
    refine (again_beginning ih (room' - 1)).imp_good fun left t hleft => ?_
    refine (again_climb ih (room' - 1)).imp_good fun e u he hu => ?_
    obtain ⟨ht, hclimb⟩ := he hu
    obtain ⟨hs, hbegin⟩ := hleft ht
    refine ⟨hs, fun hroom => ?_⟩
    obtain ⟨r, rfl⟩ : ∃ r, room' = r + 1 := ⟨room' - 1, by omega⟩
    rw [Nat.add_sub_cancel] at hbegin hclimb
    obtain ⟨hrise, hread⟩ := hclimb (Nat.le_of_lt_succ hroom)
    rw [eq_ok_iff_ends, ends_expr_succ, ends_phrase, ends_of_ok (hbegin hrise), ends_of_ok hread]
    exact ⟨rfl, rfl⟩

/-- What is read is read in the same way with more room, under any limit. -/
theorem expr_withLimit_of_ok {e : Expr} (h : p.expr room power s = .ok e t) (hroom : room ≤ room')
    (d : Nat) : (p.withLimit d).expr room' power s = .ok e t := by
  rcases cutShort_expr p d hroom power s with heq | ⟨u, hu, -⟩
  · rw [← heq, h]
  · rw [h] at hu
    cases hu

end Parser

/-! ## Rows of tokens -/

section Rows

variable {g : Grammar} {tokens : List Token} {d d' : Nat} {e : Expr} {t : Progress}

theorem ReadsFirst.rise_lt (h : ReadsFirst g d tokens e t) : e.rise < d :=
  (Parser.ends_of_ok h.2).mp (Parser.rise_expr ⟨g, .ofList tokens, d⟩ d .default .start)

/-- Under a larger limit the same is read. -/
theorem ReadsFirst.mono (h : ReadsFirst g d tokens e t) (hd : d ≤ d') :
    ReadsFirst g d' tokens e t :=
  ⟨h.1, Parser.expr_withLimit_of_ok (p := ⟨g, .ofList tokens, d⟩) h.2 hd d'⟩

/-- Without groups the same is read under every limit that the rise allows. -/
theorem ReadsFirst.of_rise_lt (h : ReadsFirst g d tokens e t)
    (hgroups : Parser.Ungrouped ⟨g, .ofList tokens, d⟩ t) (hd : e.rise < d') :
    ReadsFirst g d' tokens e t := by
  have hagain := Parser.again_expr ⟨g, .ofList tokens, d⟩ d d' .default .start
  have hread := (((Parser.ends_of_ok h.2).mp hagain) hgroups).2 hd
  exact ⟨h.1, Parser.expr_withLimit_of_ok hread (Nat.le_refl d') d'⟩

/-- What the limit on nesting has to do with the paths of the trees of a row. -/
structure NestingBounds (g : Grammar) (tokens : List Token) : Prop where
  /-- On each path to a leaf there are fewer edges that are not left ones than levels allowed. -/
  bounded : ∀ d e, parseTokens g d tokens = .ok e → ∀ n, e.RisesTo n → n + 1 ≤ d
  /-- If the row is accepted without opening a group, it takes a level for each such edge on a path
  and one more, and no more levels than that. -/
  tight : ∀ d e, (runTokens g d tokens).result = .ok e →
    (∀ t power, .begins t power ∈ (runTokens g d tokens).dispatches →
      g.prefixRule? t.kind ≠ some .group) →
    ∃ n, IsGreatest {n | e.RisesTo n} n ∧ IsLeast {d | ∃ e, parseTokens g d tokens = .ok e} (1 + n)

theorem nestingBounds (g : Grammar) (tokens : List Token) : NestingBounds g tokens where
  bounded d e h n hn := by
    obtain ⟨t, hread, -⟩ := exists_readsFirst h
    have hle := e.isGreatest_rise.2 hn
    have hlt := hread.rise_lt
    omega
  tight d e h hdispatches := by
    obtain ⟨t, hread, hend⟩ := exists_readsFirst h
    have hgroups : Parser.Ungrouped ⟨g, .ofList tokens, d⟩ t := fun u power hu =>
      hdispatches u power (by rw [hread.runTokens_eq]; exact List.mem_reverse.mpr hu)
    refine ⟨e.rise, e.isGreatest_rise, ⟨e, ?_⟩, ?_⟩
    · have hleast : ReadsFirst g (1 + e.rise) tokens e t := hread.of_rise_lt hgroups (by omega)
      rw [parseTokens, hleast.runTokens_eq, if_pos hend]
    · rintro d' ⟨e', h'⟩
      obtain ⟨t', hread', -⟩ := exists_readsFirst h'
      rcases Nat.le_total d d' with hle | hle
      · have hlt := hread.rise_lt
        omega
      · -- Under the two limits the same has been read.
        have hsame := (hread'.mono hle).2.symm.trans hread.2
        cases hsame
        have hlt := hread'.rise_lt
        omega

/-! ## Left edges -/

/-- The text `x+x+⋯+x` with so many plus signs. -/
def sumText : Nat → List Char
  | 0 => ['x']
  | n + 1 => sumText n ++ ['+', 'x']

/-- The tokens are a sum that nests two levels deep and has a path of so many left edges. -/
def IsLeftSum (n : Nat) (ts : List Token) : Prop :=
  ∃ e m, DerivesIn 2 .sum ts e ∧ e.descend (.replicate n .left) = some m

theorem scansTo_sumText (n : Nat) {rest : List Char}
    (hrest : ∀ c ∈ rest.head?, continuesIdentifier c = false) :
    ScansTo (sumText n) rest (IsLeftSum n) := by
  induction n generalizing rest with
  | zero =>
    refine (scansTo_name rfl hrest).imp ?_
    rintro _ ⟨t, rfl, hk, -⟩
    have hname : DerivesIn 2 .atom [t] _ := .produced (.identifier hk)
    exact ⟨_, _, hname.loosen (by decide), Expr.descend_nil⟩
  | succ n ih =>
    have hfirst : ∀ c ∈ ('+' :: 'x' :: rest).head?, continuesIdentifier c = false := by
      rintro _ ⟨⟩
      decide
    have hname : ScansTo ['x'] rest (Single .identifier ['x']) := scansTo_name rfl hrest
    refine ((ih hfirst).append ((scansTo_symbol .add).append hname)).imp ?_
    · rintro _ ⟨ts, _, rfl, ⟨left, m, hleft, hpath⟩, _, _, rfl, ⟨t, rfl, ht, -⟩, u, rfl, hu, -⟩
      have hright : DerivesIn 1 .atom [u] _ := .produced (.identifier hu)
      have hsum : DerivesIn 2 .sum (ts ++ t :: [u]) _ :=
        .produced (.operation (by rw [ht]; decide) (by rw [ht]; rfl) hleft
          (hright.loosen (by decide)))
      exact ⟨_, m, hsum, hpath⟩

/-- Two levels are enough for trees of any height. -/
theorem exists_parseWithin_two (n : Nat) : ∃ source e path m,
    parseWithin 2 source = .ok e ∧ e.descend path = some m ∧ n ≤ path.length := by
  have hscan : ScansTo (String.ofList (sumText n)).toList [] (IsLeftSum n) := by
    rw [String.toList_ofList]
    exact scansTo_sumText n nofun
  have hproper : ∀ ts, IsLeftSum n ts → ∀ t ∈ ts, t.IsProper := by
    rintro ts ⟨e, m, he, -⟩
    exact he.derives.isProper
  obtain ⟨ts, p, ⟨e, m, he, hpath⟩, -, htokenize⟩ :=
    hscan.exists_tokenize fun ts hts t ht => (hproper ts hts t ht).2
  refine ⟨.ofList (sumText n), e, _, m, ?_, hpath, Nat.le_of_eq List.length_replicate.symm⟩
  rw [parseWithin, htokenize]
  exact (parseTokens_eq_ok_iff_derivesIn (fun t ht => (he.derives.isProper t ht).1) rfl
    (by decide)).mpr (.inr (he.loosen (by decide)))

/-- The limit on nesting bounds the edges that are not left ones, exactly where there are no groups,
and does not bound the height. -/
theorem rise_bounded_height_unbounded : (∀ g tokens, NestingBounds g tokens) ∧
    ∀ n, ∃ source e path m,
      parseWithin 2 source = .ok e ∧ e.descend path = some m ∧ n ≤ path.length :=
  ⟨nestingBounds, exists_parseWithin_two⟩

end Rows

end Precedence

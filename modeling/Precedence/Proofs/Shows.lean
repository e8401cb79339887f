import Mathlib.Data.List.Permutation
import Precedence.Proofs.Ends

/-!
# Stretches of a stream

A parse reads a stream from one index to another. What lies between is a list of tokens that the
stream shows from the first index on (`Stream.Shows`), and it is this list that a grammar speaks
of. A token that does not mark the end lies before the closing one, and reading it moves the
cursor by one.
-/

namespace Precedence

/-- A token by itself in the first line, for rows written out. -/
def Token.inLine (kind : TokenKind) (text : String) (column : UInt32) : Token :=
  ⟨kind, text, .point ⟨1, column⟩⟩

namespace Stream

/-- From the index on, the stream holds the tokens of the list. -/
def Shows (w : Stream) : Nat → List Token → Prop
  | _, [] => True
  | i, t :: ts => w.token i = t ∧ w.Shows (i + 1) ts

variable {w : Stream} {i : Nat} {ts us : List Token}

@[simp] theorem shows_nil : w.Shows i [] := trivial

@[simp] theorem shows_cons {t : Token} :
    w.Shows i (t :: ts) ↔ w.token i = t ∧ w.Shows (i + 1) ts := Iff.rfl

theorem shows_append : w.Shows i (ts ++ us) ↔ w.Shows i ts ∧ w.Shows (i + ts.length) us := by
  induction ts generalizing i with
  | nil => simp
  | cons t ts ih =>
    have hi : i + 1 + ts.length = i + (ts.length + 1) := by omega
    rw [List.cons_append, shows_cons, shows_cons, ih, List.length_cons, hi, and_assoc]

theorem shows_concat {t : Token} :
    w.Shows i (ts ++ [t]) ↔ w.Shows i ts ∧ w.token (i + ts.length) = t := by
  rw [shows_append, shows_cons]
  simp only [shows_nil, and_true]

theorem Shows.head {t : Token} (h : w.Shows i ts) (ht : ts.head? = some t) : w.token i = t := by
  cases ts with
  | nil => cases ht
  | cons u us =>
    obtain rfl : u = t := Option.some.inj ht
    exact h.1

theorem Shows.forall_head {P : Token → Prop} {t : Token} (h : w.Shows i (ts ++ [t]))
    (hP : ∀ u, (ts ++ [t]).head? = some u → P u) : P (w.token i) := by
  obtain ⟨u, us, hu⟩ : ∃ u us, ts ++ [t] = u :: us := List.exists_cons_of_ne_nil (by simp)
  have hhead : (ts ++ [t]).head? = some u := by rw [hu]; rfl
  rw [h.head hhead]
  exact hP u hhead

/-- The row of a stream and its closing token. -/
def tokens (w : Stream) : List Token := w.body.toList ++ [w.last]

theorem getElem?_tokens (h : i ≤ w.body.size) : w.tokens[i]? = some (w.token i) := by
  unfold tokens
  rcases Nat.lt_or_eq_of_le h with hlt | rfl
  · rw [List.getElem?_append_left (by simpa using hlt)]
    simp [token, hlt]
  · simp [token]

/-- Behind the row there is only the closing token to see. -/
theorem token_min (w : Stream) (i : Nat) : w.token (min i w.body.size) = w.token i := by
  rcases Nat.le_total i w.body.size with h | h
  · rw [Nat.min_eq_left h]
  · rw [Nat.min_eq_right h, token_of_size_le h, token_of_size_le (Nat.le_refl _)]

theorem getElem?_tokens_min (w : Stream) (i : Nat) :
    w.tokens[min i w.body.size]? = some (w.token i) := by
  rw [getElem?_tokens (Nat.min_le_right _ _), token_min]

/-- Up to the closing token, what a stream shows is a stretch of its tokens. -/
theorem shows_iff_isPrefix (h : i + ts.length ≤ w.body.size + 1) :
    w.Shows i ts ↔ ts <+: w.tokens.drop i := by
  induction ts generalizing i with
  | nil => simp
  | cons t ts ih =>
    rw [List.length_cons] at h
    have htoken := getElem?_tokens (w := w) (i := i) (by omega)
    obtain ⟨hi, hget⟩ := List.getElem?_eq_some_iff.mp htoken
    rw [shows_cons, ih (by omega), List.drop_eq_getElem_cons hi, List.cons_prefix_cons, hget,
      eq_comm]

@[simp] theorem length_tokens (w : Stream) : w.tokens.length = w.body.size + 1 := by
  simp [tokens]

theorem shows_of_isPrefix (h : ts <+: w.tokens) : w.Shows 0 ts :=
  (shows_iff_isPrefix (by rw [Nat.zero_add, ← length_tokens]; exact h.length_le)).mpr h

/-! ## Streams of lists -/

/-- A list that ends in a token marking the end is the row before it and that token. -/
theorem ofList_concat {last : Token} (h : last.kind = .eof) :
    ofList (ts ++ [last]) = ⟨ts.toArray, last, h⟩ := by
  have hback : (ts ++ [last]).toArray.back? = some last := by simp
  unfold ofList
  dsimp only
  split
  · rename_i token ht
    obtain rfl : last = token := Option.some.inj (hback.symm.trans ht)
    simp [h]
  · rename_i hn
    rw [hback] at hn
    cases hn

theorem prefix_tokens_ofList (row : List Token) : row <+: (ofList row).tokens := by
  rcases List.eq_nil_or_concat row with rfl | ⟨ts, u, rfl⟩
  · exact List.nil_prefix
  · rw [List.concat_eq_append]
    by_cases h : u.kind = .eof
    · rw [ofList_concat h]
      exact List.prefix_refl _
    · simp [ofList, tokens, h]

theorem kind_token_ofList_ne {row : List Token} (h : ∀ t ∈ row.dropLast, t.kind ≠ .eof)
    (hi : i < (ofList row).body.size) : ((ofList row).token i).kind ≠ .eof := by
  rcases List.eq_nil_or_concat row with rfl | ⟨ts, u, rfl⟩
  · exact absurd hi (Nat.not_lt_zero i)
  · rw [List.concat_eq_append] at *
    rw [List.dropLast_concat] at h
    by_cases hu : u.kind = .eof
    · rw [ofList_concat hu] at *
      have hi : i < ts.length := hi
      simpa [token, hi] using h ts[i] (List.getElem_mem hi)
    · have hrow : (ofList (ts ++ [u])).body = (ts ++ [u]).toArray := by simp [ofList, hu]
      rw [hrow, List.size_toArray] at hi
      have hall : ∀ t ∈ ts ++ [u], t.kind ≠ .eof :=
        List.forall_mem_append.mpr ⟨h, List.forall_mem_singleton.mpr hu⟩
      have htoken : (ofList (ts ++ [u])).token i = (ts ++ [u])[i] := by
        rw [token, hrow, List.getElem?_toArray, List.getElem?_eq_getElem hi, Option.getD_some]
      rw [htoken]
      exact hall _ (List.getElem_mem hi)

theorem isBlank_of_lt (h : i < w.body.size) : w.isBlank = false := by
  have hne : w.body.size ≠ 0 := by omega
  simpa [isBlank] using hne

theorem isBlank_eq_false {t : Token} (h : ts ++ [t] <+: w.tokens) (ht : t.kind ≠ .eof) :
    w.isBlank = false := by
  obtain ⟨hts, hlast⟩ := shows_concat.mp (shows_of_isPrefix h)
  refine isBlank_of_lt (i := 0 + ts.length) (Nat.lt_of_not_le fun hle => ht ?_)
  rw [← hlast]
  exact kind_token_of_size_le hle

end Stream

/-! ## Marks of the end -/

section Marks

variable {ts us row : List Token} {t u : Token}

theorem length_le_of_prefix_mark (hus : ∀ v ∈ us, v.kind ≠ .eof) (ht : t.kind = .eof)
    (h : ts ++ [t] <+: row) (h' : us ++ [u] <+: row) : us.length ≤ ts.length := by
  refine Nat.le_of_not_lt fun hlt => ?_
  have hrow : us <+: row := (List.prefix_append us [u]).trans h'
  have hmark : ts ++ [t] <+: us :=
    List.prefix_of_prefix_length_le h hrow (by rw [List.length_append]; exact hlt)
  exact hus t (hmark.subset (by simp)) ht

/-- A row has its first mark of the end in one place. -/
theorem eq_of_prefix_mark (hts : ∀ v ∈ ts, v.kind ≠ .eof) (hus : ∀ v ∈ us, v.kind ≠ .eof)
    (ht : t.kind = .eof) (hu : u.kind = .eof) (h : ts ++ [t] <+: row) (h' : us ++ [u] <+: row) :
    ts = us := by
  have hle := length_le_of_prefix_mark hts hu h' h
  have hge := length_le_of_prefix_mark hus ht h h'
  have hrow : ts <+: row := (List.prefix_append ts [t]).trans h
  have hrow' : us <+: row := (List.prefix_append us [u]).trans h'
  exact (List.prefix_of_prefix_length_le hrow hrow' hle).eq_of_length (Nat.le_antisymm hle hge)

end Marks

namespace Parser

variable {p : Parser} {s : Progress}

theorem cursor_advanced_eq (p : Parser) (s : Progress) :
    (p.advanced s).cursor =
      if s.cursor < p.stream.size then s.cursor + 1 else s.cursor := by
  unfold advanced
  split <;> rfl

theorem cursor_advanced (h : s.cursor < p.stream.size) :
    (p.advanced s).cursor = s.cursor + 1 := by
  rw [cursor_advanced_eq, if_pos h]

/-- A token that does not mark the end is read by moving the cursor on, no further than to the
closing token. -/
theorem advanced_of_kind_ne (h : (p.current s).kind ≠ .eof) :
    (p.advanced s).cursor = s.cursor + 1 ∧ s.cursor + 1 ≤ p.stream.body.size := by
  have hlt := cursor_lt_of_kind_ne h
  exact ⟨cursor_advanced (Nat.lt_succ_of_lt hlt), hlt⟩

theorem read_of_shows {t : Token} {ts : List Token} (h : p.stream.Shows s.cursor (t :: ts))
    (hk : t.kind ≠ .eof) :
    p.current s = t ∧ (p.advanced s).cursor = s.cursor + 1 ∧
      p.stream.Shows (p.advanced s).cursor ts := by
  obtain ⟨ht, hts⟩ := h
  have hcur : p.current s = t := ht
  obtain ⟨hadv, -⟩ := advanced_of_kind_ne (hcur.symm ▸ hk)
  exact ⟨hcur, hadv, by rw [hadv]; exact hts⟩

theorem current_of_shows {i : Nat} {t : Token} {ts us : List Token}
    (h : p.stream.Shows i (ts ++ t :: us)) (hs : s.cursor = i + ts.length) : p.current s = t := by
  obtain ⟨-, ht, -⟩ := Stream.shows_append.mp h
  rw [current, hs, ht]

@[simp] theorem cursor_noted (dispatch : Dispatch) (s : Progress) :
    (noted dispatch s).cursor = s.cursor := rfl

@[simp] theorem current_noted (dispatch : Dispatch) (s : Progress) :
    p.current (noted dispatch s) = p.current s := rfl

theorem cursor_advanced_noted (dispatch : Dispatch) (s : Progress) :
    (p.advanced (noted dispatch s)).cursor = (p.advanced s).cursor := by
  rw [cursor_advanced_eq, cursor_advanced_eq, cursor_noted]

@[simp] theorem trace_advanced : (p.advanced s).trace = s.trace := by
  unfold advanced; split <;> rfl

/-! ## What lies between two states -/

/-- The tokens between two states of a parse, the second of them within the row or behind it. -/
structure Spans (p : Parser) (s : Progress) (ts : List Token) (t : Progress) : Prop where
  shows : p.stream.Shows s.cursor ts
  cursor : t.cursor = s.cursor + ts.length
  le : t.cursor ≤ p.stream.body.size

variable {t v : Progress} {ts us : List Token}

theorem Spans.nil (h : s.cursor ≤ p.stream.body.size) : p.Spans s [] s := ⟨trivial, rfl, h⟩

theorem Spans.append (h : p.Spans s ts t) (h' : p.Spans t us v) : p.Spans s (ts ++ us) v where
  shows := Stream.shows_append.mpr ⟨h.shows, h.cursor ▸ h'.shows⟩
  cursor := by rw [h'.cursor, h.cursor, List.length_append, Nat.add_assoc]
  le := h'.le

theorem Spans.advanced (h : s.cursor < p.stream.body.size) :
    p.Spans s [p.current s] (p.advanced s) := by
  have hadv := cursor_advanced (p := p) (Nat.lt_succ_of_lt h)
  exact ⟨⟨rfl, trivial⟩, hadv, by rw [hadv]; exact h⟩

/-- A token of the row, read for a rule to be applied. -/
theorem Spans.read (dispatch : Dispatch) (h : s.cursor < p.stream.body.size) :
    p.Spans s [p.current s] (noted dispatch (p.advanced s)) :=
  have hread := Spans.advanced h
  ⟨hread.shows, hread.cursor, hread.le⟩

/-- What has been read from the start, with the token behind it, begins the row. -/
theorem Spans.prefix_tokens (h : p.Spans .start ts t) :
    ts ++ [p.current t] <+: p.stream.tokens := by
  have hcursor : t.cursor = 0 + ts.length := h.cursor
  have hle := h.le
  have hshow : p.stream.Shows 0 (ts ++ [p.current t]) :=
    Stream.shows_concat.mpr ⟨h.shows, by rw [current, hcursor]⟩
  refine (Stream.shows_iff_isPrefix ?_).mp hshow
  rw [List.length_append, List.length_singleton]
  omega

end Parser

end Precedence

import MipsMacro.Proofs.Layout
import MipsMacro.Proofs.Quoting

/-!
# Lines as the lexer sees them

Proved here:

* `tokenize_eq_ok_iff`: the tokens of a line are those among its pieces;
* `LexedLine.ofTokenize`: a line that is cut into tokens consists of these tokens, each at its
  offset, of blanks between them, and perhaps of a comment at the end;
* `LexedLine.layout`: this is a layout of the line;
* `Lexer.layout`: so are the pieces that the lexer cuts it into;
* `Lexer.stands_of_mem_place`: a token stands behind as many characters and bytes as its column and its
  offset say.
-/

namespace MipsMacro

open Text

theorem tokenize_eq_ok_iff {file : String} {n : Nat} {text : String} {tokens : List Token} :
    tokenize file n text = .ok tokens ↔
      (Lexer.pieces text.toList).2 = none ∧
        tokens = Lexer.place n 1 0 (Lexer.pieces text.toList).1 := by
  unfold tokenize
  split
  · next hpieces => simp [hpieces, eq_comm]
  · next hpieces => simp [hpieces]

/-- A line seen as the given tokens, from left to right, blanks between them and a comment. -/
structure LexedLine (text : List Char) (tokens : List Token) where
  spans : List Span
  comment : List Char
  source : Span.render (·.text.toList) spans ++ comment = text
  tokens_eq : Span.tokens spans = tokens
  placed : Span.Placed 0 spans
  blank : ∀ cs, Span.gap cs ∈ spans → ∀ c ∈ cs, Lexer.isBlank c = true
  closed : ∀ t ∈ tokens, Quoting.top.run t.text.toList = .top
  comment_eq : comment = [] ∨ ∃ rest, comment = '#' :: rest

namespace Lexer

/-- The spans and the comment that pieces are, when the first of them starts at the given place. -/
theorem exists_spans_of_pieces (line : Nat) (cs : List Char) (h : (pieces cs).2 = none)
    (column offset : Nat) :
    ∃ spans comment, Span.render (·.text.toList) spans ++ comment = cs ∧
      Span.tokens spans = place line column offset (pieces cs).1 ∧
      Span.Placed offset spans ∧
      (∀ gap, Span.gap gap ∈ spans → ∀ c ∈ gap, isBlank c = true) ∧
      (∀ t ∈ Span.tokens spans, Quoting.top.run t.text.toList = .top) ∧
      (comment = [] ∨ ∃ rest, comment = '#' :: rest) := by
  fun_induction pieces cs generalizing column offset with
  | case1 => exact ⟨[], [], rfl, rfl, trivial, by simp, by simp, Or.inl rfl⟩
  | case2 => cases h
  | case3 c cs kind tail rest hpiece more ih =>
    have happ := piece_append hpiece
    obtain ⟨spans, comment, hsource, htokens, hplaced, hblank, hclosed, hcomment⟩ :=
      ih h (column + (c :: tail).length) (offset + byteSize (c :: tail))
    rcases piece_cases hpiece with ⟨k, rfl, hrun⟩ | ⟨rfl, rfl, hb⟩ | ⟨rfl, rfl, rfl⟩
    · refine ⟨.token ⟨k, String.ofList (c :: tail), line, column, offset⟩ :: spans, comment,
        ?_, ?_, ?_, ?_, ?_, hcomment⟩
      · rw [Span.render_token, List.append_assoc, hsource, String.toList_ofList, ← happ]
        rfl
      · rw [Span.tokens_token, htokens]
        rfl
      · refine ⟨rfl, by simp, ?_⟩
        rw [Token.size, String.toList_ofList]
        exact hplaced
      · intro gap hgap
        rcases List.mem_cons.mp hgap with hgap | hgap
        · cases hgap
        · exact hblank gap hgap
      · intro t ht
        rw [Span.tokens_token] at ht
        rcases List.mem_cons.mp ht with rfl | ht
        · rw [String.toList_ofList]
          exact hrun
        · exact hclosed t ht
    · refine ⟨.gap [c] :: spans, comment, ?_, ?_, hplaced, ?_, hclosed, hcomment⟩
      · rw [Span.render_gap, List.append_assoc, hsource, ← happ]
        rfl
      · rw [Span.tokens_gap, htokens]
        rfl
      · intro gap hgap
        rcases List.mem_cons.mp hgap with hgap | hgap
        · cases hgap
          simpa using hb
        · exact hblank gap hgap
    · refine ⟨[], '#' :: tail, ?_, ?_, trivial, by simp, by simp, Or.inr ⟨tail, rfl⟩⟩
      · rw [← happ, List.append_nil]
        rfl
      · simp [more, pieces, place]

end Lexer

theorem Span.Placed.append_gap {start : Nat} {spans : List Span} (h : Placed start spans)
    (cs : List Char) : Placed start (spans ++ [.gap cs]) := by
  induction spans generalizing start with
  | nil => trivial
  | cons s spans ih =>
    cases s with
    | gap gap => exact ih h
    | token t => exact ⟨h.1, h.2.1, ih h.2.2⟩

theorem Span.render_append (f : Token → List Char) (a b : List Span) :
    render f (a ++ b) = render f a ++ render f b :=
  List.flatMap_append

namespace LexedLine

theorem ofTokenize {file : String} {n : Nat} {text : String} {tokens : List Token}
    (h : tokenize file n text = .ok tokens) : Nonempty (LexedLine text.toList tokens) := by
  obtain ⟨hnone, rfl⟩ := tokenize_eq_ok_iff.mp h
  obtain ⟨spans, comment, hsource, htokens, hplaced, hblank, hclosed, hcomment⟩ :=
    Lexer.exists_spans_of_pieces n text.toList hnone 1 0
  exact ⟨⟨spans, comment, hsource, htokens, hplaced, hblank, htokens ▸ hclosed, hcomment⟩⟩

variable {text : List Char} {tokens : List Token}

def layout (l : LexedLine text tokens) : Layout text tokens where
  spans := l.spans ++ [.gap l.comment]
  source := by
    rw [Span.render_append, Span.render_gap, Span.render_nil, List.append_nil]
    exact l.source
  perm := by
    have htokens : Span.tokens (l.spans ++ [.gap l.comment]) = Span.tokens l.spans := by
      simp [Span.tokens, Span.token?]
    rw [htokens, l.tokens_eq]
  placed := l.placed.append_gap l.comment

/-- Replacing the tokens of a line leaves its comment behind them. -/
theorem replace_layout (l : LexedLine text tokens) (f : Token → String) :
    (l.layout.replace f).toList = Span.render (fun t => (f t).toList) l.spans ++ l.comment := by
  simp [Layout.replace, layout, Span.render_append]

end LexedLine

/-! ## Pieces as a layout -/

namespace Lexer

theorem exists_of_mem_pieces {cs : List Char} {p : Piece} (h : p ∈ (pieces cs).1) :
    ∃ c cs' tail rest, p.chars = c :: tail ∧ piece c cs' = .ok (p.kind, tail, rest) := by
  fun_induction pieces cs with
  | case1 => cases h
  | case2 => cases h
  | case3 c cs kind tail rest hpiece more ih =>
    rcases List.mem_cons.mp h with rfl | h
    · exact ⟨c, cs, tail, rest, rfl, hpiece⟩
    · exact ih h

theorem ne_nil_of_mem_pieces {cs : List Char} {p : Piece} (h : p ∈ (pieces cs).1) : p.chars ≠ [] := by
  obtain ⟨c, cs', tail, rest, hchars, -⟩ := exists_of_mem_pieces h
  simp [hchars]

/-- Pieces as spans, of which the first starts at the given column and offset. -/
def spans (line column offset : Nat) : List Piece → List Span
  | [] => []
  | p :: ps =>
    let rest := spans line (column + p.chars.length) (offset + byteSize p.chars) ps
    match p.kind with
    | some kind => .token ⟨kind, String.ofList p.chars, line, column, offset⟩ :: rest
    | none => .gap p.chars :: rest

theorem tokens_spans (line column offset : Nat) (ps : List Piece) :
    Span.tokens (spans line column offset ps) = place line column offset ps := by
  induction ps generalizing column offset with
  | nil => rfl
  | cons p ps ih =>
    obtain ⟨kind, chars⟩ := p
    cases kind with
    | none => simp only [spans, place, Span.tokens_gap, ih]
    | some kind => simp only [spans, place, Span.tokens_token, ih]

theorem render_spans (line column offset : Nat) (ps : List Piece) :
    Span.render (·.text.toList) (spans line column offset ps) = covered ps := by
  induction ps generalizing column offset with
  | nil => rfl
  | cons p ps ih =>
    obtain ⟨kind, chars⟩ := p
    have hcovered : covered (⟨kind, chars⟩ :: ps) = chars ++ covered ps := rfl
    cases kind with
    | none => rw [hcovered, ← ih]; rfl
    | some kind =>
      rw [hcovered, ← ih (column + chars.length) (offset + byteSize chars)]
      simp only [spans, Span.render_token, String.toList_ofList]

theorem placed_spans (line column offset : Nat) {ps : List Piece} (h : ∀ p ∈ ps, p.chars ≠ []) :
    Span.Placed offset (spans line column offset ps) := by
  induction ps generalizing column offset with
  | nil => trivial
  | cons p ps ih =>
    obtain ⟨kind, chars⟩ := p
    have hrest := ih (column + chars.length) (offset + byteSize chars)
      fun q hq => h q (List.mem_cons_of_mem _ hq)
    cases kind with
    | none => exact hrest
    | some kind =>
      refine ⟨rfl, ?_, ?_⟩
      · simpa using h _ (List.mem_cons_self ..)
      · simpa [Token.size] using hrest

/-- The layout of a line that its pieces give. -/
def layout {file : String} {n : Nat} {text : String} {tokens : List Token}
    (h : tokenize file n text = .ok tokens) : Layout text.toList tokens where
  spans := spans n 1 0 (pieces text.toList).1
  source := by
    rw [render_spans]
    exact pieces_flatten (tokenize_eq_ok_iff.mp h).1
  perm := by
    rw [tokens_spans, (tokenize_eq_ok_iff.mp h).2]
  placed := placed_spans n 1 0 fun _ => ne_nil_of_mem_pieces

/-! ## Columns and offsets -/

theorem stands_of_mem_place {line column offset : Nat} {ps : List Piece}
    (hne : ∀ p ∈ ps, p.chars ≠ []) {t : Token} (h : t ∈ place line column offset ps) :
    t.line = line ∧ t.text.toList ≠ [] ∧
      ∃ pre post, covered ps = pre ++ t.text.toList ++ post ∧ t.column = column + pre.length ∧
        t.offset = offset + byteSize pre := by
  induction ps generalizing column offset with
  | nil => cases h
  | cons p ps ih =>
    rw [List.forall_mem_cons] at hne
    have hcovered : covered (p :: ps) = p.chars ++ covered ps := rfl
    have hlater : t ∈ place line (column + p.chars.length) (offset + byteSize p.chars) ps →
        t.line = line ∧ t.text.toList ≠ [] ∧
          ∃ pre post, covered (p :: ps) = pre ++ t.text.toList ++ post ∧
            t.column = column + pre.length ∧ t.offset = offset + byteSize pre := by
      intro h
      obtain ⟨hline, htext, pre, post, hcut, hcolumn, hoffset⟩ := ih hne.2 h
      refine ⟨hline, htext, p.chars ++ pre, post, ?_, ?_, ?_⟩
      · rw [hcovered, hcut]
        simp
      · rw [hcolumn, List.length_append]
        omega
      · rw [hoffset, byteSize_append]
        omega
    cases hkind : p.kind with
    | none =>
      simp only [place, hkind] at h
      exact hlater h
    | some kind =>
      simp only [place, hkind] at h
      rcases List.mem_cons.mp h with rfl | h
      · refine ⟨rfl, by simpa using hne.1, [], covered ps, ?_, rfl, rfl⟩
        simp [hcovered]
      · exact hlater h

end Lexer

end MipsMacro

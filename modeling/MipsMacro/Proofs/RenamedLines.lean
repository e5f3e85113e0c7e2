import MipsMacro.Proofs.LexedLabels

/-!
# Renaming the identifiers of a line

A line whose identifiers grow at their ends is cut into tokens where it was before. Proved here:

* `Lexer.piece_append_right`: a piece ends where it did if what follows it begins as before;
* `Lexer.pieces_rename`: so a line whose identifiers grow is cut at the same places;
* `Lexer.labels_rename`: so its leading labels are those it had, renamed, and no others.
-/

namespace MipsMacro

open Text

namespace Lexer

/-- A literal ends at its quote, whatever follows it. -/
theorem literal_append_right {quote : Char} {cs body rest : List Char}
    (h : literal quote cs = some (body, rest)) (rest' : List Char) :
    literal quote (body ++ rest') = some (body, rest') := by
  fun_induction literal quote cs generalizing body rest with
  | case1 => cases h
  | case2 cs =>
    cases h
    unfold literal
    simp
  | case3 => cases h
  | case4 d ds hne ih =>
    obtain ⟨⟨tail, rest₁⟩, htail, heq⟩ := Option.map_eq_some_iff.mp h
    cases heq
    unfold literal
    simp [hne, ih htail]
  | case5 c cs hne hback ih =>
    obtain ⟨⟨tail, rest₁⟩, htail, heq⟩ := Option.map_eq_some_iff.mp h
    cases heq
    unfold literal
    simp [hne, hback, ih htail]

theorem any_head?_dropWhile (cs : List Char) :
    (cs.dropWhile isIdentChar).head?.any isIdentChar = false := by
  have hnot := List.head?_dropWhile_not isIdentChar cs
  cases hhead : (cs.dropWhile isIdentChar).head? with
  | none => rfl
  | some c => simpa [hhead] using hnot

/-- A token ends where it did, whatever follows it, as long as a word does not go on. -/
theorem Opening.take_append_right {o : Opening} {cs tail rest : List Char} {kind : TokenKind}
    (h : o.take cs = .ok (some kind, tail, rest)) {rest' : List Char}
    (hend : ∀ k, o = .word k → rest'.head?.any isIdentChar = false) :
    o.take (tail ++ rest') = .ok (some kind, tail, rest') := by
  cases o with
  | blank => cases h
  | comment => cases h
  | quote q =>
    rw [take] at h
    split at h
    · next hliteral =>
      cases h
      simp [take, literal_append_right hliteral]
    · cases h
  | word k =>
    cases h
    have hword : ∀ d ∈ cs.takeWhile isIdentChar, isIdentChar d = true :=
      fun d hd => List.all_eq_true.mp List.all_takeWhile d hd
    obtain ⟨htake, hdrop⟩ := span_word hword (hend kind rfl)
    rw [take, htake, hdrop]
  | sign k =>
    cases h
    rfl

/-- A piece ends where it did if what follows it begins as before. -/
theorem piece_append_right {c : Char} {cs tail rest : List Char} {kind : Option TokenKind}
    (h : piece c cs = .ok (kind, tail, rest)) {rest' : List Char} (hhead : rest'.head? = rest.head?) :
    piece c (tail ++ rest') = .ok (kind, tail, rest') := by
  have hnext : (tail ++ rest').head? = cs.head? := by
    rw [← piece_append h, List.head?_append, List.head?_append, hhead]
  unfold piece at h ⊢
  rw [hnext]
  cases kind with
  | some kind =>
    refine Opening.take_append_right h fun k hword => ?_
    rw [hword] at h
    cases h
    rw [hhead]
    exact any_head?_dropWhile cs
  | none =>
    rcases piece_cases h with ⟨k, hk, -⟩ | ⟨-, rfl, hblank⟩ | ⟨-, rfl, rfl⟩
    · cases hk
    · rw [opening_of_isBlank hblank]
      rfl
    · obtain rfl : rest' = [] := List.head?_eq_none_iff.mp hhead
      rw [List.append_nil]
      rfl

/-- An identifier goes as far as there are characters of names. -/
theorem any_head?_of_identifier {c : Char} {cs tail rest : List Char}
    (h : piece c cs = .ok (some .identifier, tail, rest)) : rest.head?.any isIdentChar = false := by
  have hword : IsWord (c :: tail) := (fits_of_piece h).identifier_iff.mp rfl
  rw [piece, opening_of_isIdentStart hword.1] at h
  cases h
  exact any_head?_dropWhile cs

/-! ## Renaming -/

/-- A piece with the text `f w` if it is an identifier with the text `w`, and as it is otherwise. -/
def Piece.rename (f : List Char → List Char) (p : Piece) : Piece :=
  if p.kind = some .identifier then { p with chars := f p.chars } else p

@[simp] theorem Piece.rename_kind (f : List Char → List Char) (p : Piece) :
    (p.rename f).kind = p.kind := by
  unfold rename
  split <;> rfl

variable {f : List Char → List Char}
  (hf : ∀ w, ∃ more, f w = w ++ more ∧ ∀ c ∈ more, isIdentChar c = true)

include hf

theorem head?_covered_rename {cs : List Char} (h : (pieces cs).2 = none) :
    (covered ((pieces cs).1.map (Piece.rename f))).head? = cs.head? := by
  cases cs with
  | nil => simp [pieces, covered]
  | cons c cs =>
    rw [pieces_cons] at h ⊢
    cases hpiece : piece c cs with
    | error q => simp [hpiece] at h
    | ok found =>
      obtain ⟨kind, tail, rest⟩ := found
      obtain ⟨more, hmore, -⟩ := hf (c :: tail)
      simp only [List.map_cons, covered, List.flatMap_cons, Piece.rename]
      split <;> simp [hmore]

theorem pieces_rename {cs : List Char} (h : (pieces cs).2 = none) :
    pieces (covered ((pieces cs).1.map (Piece.rename f))) =
      ((pieces cs).1.map (Piece.rename f), none) := by
  fun_induction pieces cs with
  | case1 => simp [covered, pieces]
  | case2 => cases h
  | case3 c cs kind tail rest hpiece more ih =>
    have hhead := head?_covered_rename hf h
    have hrest := ih h
    -- the text behind the piece begins as before
    generalize hnew : covered (more.1.map (Piece.rename f)) = rest' at hhead hrest
    have hcovered : covered ((⟨kind, c :: tail⟩ :: more.1).map (Piece.rename f)) =
        (Piece.rename f ⟨kind, c :: tail⟩).chars ++ rest' := by
      rw [← hnew]
      rfl
    rw [hcovered, List.map_cons]
    by_cases hkind : kind = some .identifier
    · subst hkind
      obtain ⟨new, htext, hnew⟩ := hf (c :: tail)
      have hword : IsWord (c :: (tail ++ new)) :=
        ((fits_of_piece hpiece).identifier_iff.mp rfl).append hnew
      have hend : rest'.head?.any isIdentChar = false := by
        rw [hhead]
        exact any_head?_of_identifier hpiece
      have hrename : Piece.rename f ⟨some .identifier, c :: tail⟩ =
          ⟨some .identifier, c :: (tail ++ new)⟩ := by
        simp [Piece.rename, htext]
      rw [hrename, pieces_word hword hend, hrest]
    · have hrename : Piece.rename f ⟨kind, c :: tail⟩ = ⟨kind, c :: tail⟩ := by
        simp [Piece.rename, hkind]
      rw [hrename, List.cons_append, pieces_cons, piece_append_right hpiece hhead]
      simp [hrest, more]

omit hf

/-- A line in whose spans the identifiers are renamed, and no other tokens replaced. -/
theorem render_spans_rename {g : Token → List Char} {ps : List Piece}
    (h : ∀ p ∈ ps, ∀ kind, p.kind = some kind → ∀ line column offset,
      g ⟨kind, String.ofList p.chars, line, column, offset⟩ = (p.rename f).chars)
    (line column offset : Nat) :
    Span.render g (spans line column offset ps) = covered (ps.map (Piece.rename f)) := by
  induction ps generalizing column offset with
  | nil => rfl
  | cons p ps ih =>
    obtain ⟨hp, hps⟩ := List.forall_mem_cons.mp h
    obtain ⟨kind, chars⟩ := p
    have hrest := ih hps (column + chars.length) (offset + byteSize chars)
    have hcovered : covered ((⟨kind, chars⟩ :: ps).map (Piece.rename f)) =
        (Piece.rename f ⟨kind, chars⟩).chars ++ covered (ps.map (Piece.rename f)) := rfl
    rw [hcovered, ← hrest]
    cases kind with
    | none => rfl
    | some kind => rw [spans, Span.render_token, hp kind rfl]

/-! ## Leading labels -/

/-- Tokens that differ from others in the names of their identifiers only have the new names as
labels. -/
theorem splitLabels_of_map_eq {g : String → String} {ts ts' : List Token}
    (h : ts'.map (fun t => (t.kind, t.text)) =
      ts.map fun t => (t.kind, if t.kind = .identifier then g t.text else t.text)) :
    (splitLabels ts').1 = (splitLabels ts).1.map g := by
  fun_induction splitLabels ts generalizing ts' with
  | case1 name colon rest hkinds labels body hsplit ih =>
    rw [hsplit] at ih
    obtain ⟨name', tail', rfl, hname, htail⟩ := List.map_eq_cons_iff.mp h
    obtain ⟨colon', rest', rfl, hcolon, hrest⟩ := List.map_eq_cons_iff.mp htail
    simp only [Prod.mk.injEq] at hname hcolon
    rw [hkinds.1] at hname
    rw [hkinds.2] at hcolon
    simp [splitLabels, hname, hcolon, ih hrest]
  | case2 name colon rest hkinds =>
    obtain ⟨name', tail', rfl, hname, htail⟩ := List.map_eq_cons_iff.mp h
    obtain ⟨colon', rest', rfl, hcolon, hrest⟩ := List.map_eq_cons_iff.mp htail
    simp only [Prod.mk.injEq] at hname hcolon
    simp [splitLabels, hname.1, hcolon.1, hkinds]
  | case3 ts hshort =>
    -- fewer than two tokens hold no label
    have hlength : ts'.length = ts.length := by simpa using congrArg List.length h
    cases ts with
    | nil =>
      rw [List.length_nil, List.length_eq_zero_iff] at hlength
      rw [hlength]
      rfl
    | cons a rest =>
      cases rest with
      | nil =>
        obtain ⟨a', rfl⟩ := List.length_eq_one_iff.mp hlength
        rfl
      | cons b rest => exact absurd rfl (hshort a b rest)

/-- The kind and the text of a piece, if it is a token. -/
def Piece.lexeme? (p : Piece) : Option (TokenKind × String) :=
  p.kind.map fun kind => (kind, String.ofList p.chars)

theorem map_place (line column offset : Nat) (ps : List Piece) :
    (place line column offset ps).map (fun t => (t.kind, t.text)) = ps.filterMap Piece.lexeme? := by
  induction ps generalizing column offset with
  | nil => rfl
  | cons p ps ih =>
    obtain ⟨kind, chars⟩ := p
    cases kind with
    | none => exact ih ..
    | some kind =>
      rw [place, List.map_cons, ih]
      rfl

theorem map_place_rename (f : List Char → List Char) (line column offset : Nat)
    (line' column' offset' : Nat) (ps : List Piece) :
    (place line column offset (ps.map (Piece.rename f))).map (fun t => (t.kind, t.text)) =
      (place line' column' offset' ps).map fun t =>
        (t.kind, if t.kind = .identifier then String.ofList (f t.text.toList) else t.text) := by
  have hlexemes : ((place line' column' offset' ps).map fun t =>
      (t.kind, if t.kind = .identifier then String.ofList (f t.text.toList) else t.text)) =
      ((place line' column' offset' ps).map fun t => (t.kind, t.text)).map fun (kind, text) =>
        (kind, if kind = .identifier then String.ofList (f text.toList) else text) := by
    rw [List.map_map]
    rfl
  rw [hlexemes, map_place, map_place, List.filterMap_map, List.map_filterMap]
  refine congrArg (List.filterMap · ps) (funext fun p => ?_)
  obtain ⟨kind, chars⟩ := p
  cases kind with
  | none => rfl
  | some kind =>
    by_cases hkind : kind = .identifier <;> simp [Piece.rename, Piece.lexeme?, hkind]

theorem labels_rename (hf : ∀ w, ∃ more, f w = w ++ more ∧ ∀ c ∈ more, isIdentChar c = true)
    {file file' : String} {n n' : Nat} {text text' : String} {tokens tokens' : List Token}
    (h : tokenize file n text = .ok tokens) (h' : tokenize file' n' text' = .ok tokens')
    (htext : text'.toList = covered ((pieces text.toList).1.map (Piece.rename f))) :
    labelsOf tokens' = (labelsOf tokens).map fun label => String.ofList (f label.toList) := by
  obtain ⟨hnone, rfl⟩ := tokenize_eq_ok_iff.mp h
  obtain ⟨-, rfl⟩ := tokenize_eq_ok_iff.mp h'
  rw [htext, pieces_rename hf hnone, ← splitLabels_fst, ← splitLabels_fst]
  exact splitLabels_of_map_eq (map_place_rename f n' 1 0 n 1 0 _)

end Lexer

end MipsMacro

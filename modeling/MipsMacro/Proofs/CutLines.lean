import MipsMacro.Proofs.SpacedTokens

/-!
# Lines cut apart and put together

The lexer remembers nothing from one token to the next. Proved here:

* `Lexer.pieces_append`: a text that ends with a token is cut as it is by itself, unless a character of a
  name follows;
* `Lexer.pieces_segment`: the text of some pieces of a line, one behind the other, is cut into these
  pieces;
* `Lexer.exists_segment`: such pieces belong to tokens of a line that stand one behind the other;
* `Lexer.groupText_place`, `tokenize_groupText`: so the text that a call takes for such tokens is cut into
  tokens of their kinds and texts again.
-/

namespace MipsMacro

open Text

/-- The kind and the text of a token, without its place. -/
def Token.lexeme (t : Token) : TokenKind × String := (t.kind, t.text)

namespace Lexer

theorem covered_cons (p : Piece) (ps : List Piece) : covered (p :: ps) = p.chars ++ covered ps := rfl

theorem covered_append (ps qs : List Piece) : covered (ps ++ qs) = covered ps ++ covered qs :=
  List.flatMap_append

/-! ## Pieces -/

theorem exists_of_pieces_eq_cons {cs : List Char} {p : Piece} {ps : List Piece}
    (h : (pieces cs).1 = p :: ps) :
    ∃ c cs' tail rest, cs = c :: cs' ∧ piece c cs' = .ok (p.kind, tail, rest) ∧ p.chars = c :: tail ∧
      pieces rest = (ps, (pieces cs).2) := by
  cases cs with
  | nil => simp [pieces] at h
  | cons c cs =>
    rw [pieces_cons] at h ⊢
    cases hpiece : piece c cs with
    | error q => simp [hpiece] at h
    | ok found =>
      obtain ⟨kind, tail, rest⟩ := found
      simp only [hpiece, List.cons.injEq] at h
      obtain ⟨rfl, rfl⟩ := h
      exact ⟨c, cs, tail, rest, rfl, hpiece, rfl, rfl⟩

theorem pieces_behind {cs : List Char} {ps qs : List Piece} (h : (pieces cs).1 = ps ++ qs) :
    ∃ rest, cs = covered ps ++ rest ∧ pieces rest = (qs, (pieces cs).2) := by
  induction ps generalizing cs with
  | nil => exact ⟨cs, rfl, by rw [← show (pieces cs).1 = qs from h]⟩
  | cons p ps ih =>
    rw [List.cons_append] at h
    obtain ⟨c, cs', tail, rest, rfl, hpiece, hchars, hrest⟩ := exists_of_pieces_eq_cons h
    obtain ⟨rest', hcovered, hpieces⟩ := ih (by rw [hrest])
    rw [hrest] at hpieces
    refine ⟨rest', ?_, hpieces⟩
    rw [covered_cons, hchars, List.append_assoc, ← hcovered, List.cons_append, piece_append hpiece]

/-- A piece is a piece by itself. -/
theorem piece_alone {c : Char} {cs tail rest : List Char} {kind : Option TokenKind}
    (h : piece c cs = .ok (kind, tail, rest)) : piece c tail = .ok (kind, tail, []) := by
  cases kind with
  | some kind =>
    have halone := standsAlone_of_piece h [] rfl
    rwa [List.append_nil] at halone
  | none =>
    rcases piece_cases h with ⟨k, hk, -⟩ | ⟨-, rfl, hblank⟩ | ⟨-, rfl, -⟩
    · cases hk
    · rw [piece, opening_of_isBlank hblank]
      rfl
    · rfl

theorem pieces_front {cs : List Char} {ps qs : List Piece} (h : (pieces cs).1 = ps ++ qs) :
    pieces (covered ps) = (ps, none) := by
  induction ps generalizing cs with
  | nil => simp [covered, pieces]
  | cons p ps ih =>
    rw [List.cons_append] at h
    obtain ⟨c, cs', tail, rest, rfl, hpiece, hchars, hrest⟩ := exists_of_pieces_eq_cons h
    have hmore : (pieces rest).1 = ps ++ qs := by rw [hrest]
    have hpiece' : piece c (tail ++ covered ps) = .ok (p.kind, tail, covered ps) := by
      cases ps with
      | nil => simpa [covered] using piece_alone hpiece
      | cons p' ps =>
        obtain ⟨c', cs₁, tail₁, rest₁, rfl, -, hchars', -⟩ := exists_of_pieces_eq_cons hmore
        exact piece_append_right hpiece (by rw [covered_cons, hchars']; rfl)
    rw [covered_cons, hchars, List.cons_append, pieces_cons, hpiece']
    simp only [ih hmore, ← hchars]

/-- Pieces of a line that stand one behind the other are the pieces of their own text. -/
theorem pieces_segment {cs : List Char} {before ps after : List Piece}
    (h : (pieces cs).1 = before ++ (ps ++ after)) : pieces (covered ps) = (ps, none) := by
  obtain ⟨rest, -, hrest⟩ := pieces_behind h
  exact pieces_front (by rw [hrest])

/-- A text whose last piece is a token is cut as it is by itself, unless a character of a name
follows. -/
theorem pieces_append {as bs : List Char} (hnone : (pieces as).2 = none)
    (hlast : ∀ p, (pieces as).1.getLast? = some p → p.kind ≠ none)
    (hend : bs.head?.any isIdentChar = false) :
    pieces (as ++ bs) = ((pieces as).1 ++ (pieces bs).1, (pieces bs).2) := by
  fun_induction pieces as with
  | case1 => rfl
  | case2 => cases hnone
  | case3 c cs kind tail rest hpiece more ih =>
    have hmore : ∀ p, more.1.getLast? = some p → p.kind ≠ none := by
      intro p hp
      refine hlast p ?_
      rw [List.getLast?_cons, hp]
      rfl
    have hpiece' : piece c (tail ++ (rest ++ bs)) = .ok (kind, tail, rest ++ bs) := by
      cases rest with
      | cons d rest => exact piece_append_right hpiece rfl
      | nil =>
        -- the last piece is a token, and it ends before anything that is not a character of a name
        have hnil : more.1 = [] := by simp [more, pieces]
        cases kind with
        | none => exact absurd rfl (hlast ⟨none, c :: tail⟩ (by rw [hnil]; rfl))
        | some kind => exact standsAlone_of_piece hpiece bs hend
    rw [List.cons_append, ← piece_append hpiece, List.append_assoc, pieces_cons, hpiece']
    simp [ih hnone hmore, more]

/-! ## Places -/

theorem place_append (line column offset : Nat) (ps qs : List Piece) :
    place line column offset (ps ++ qs) =
      place line column offset ps ++
        place line (column + (covered ps).length) (offset + byteSize (covered ps)) qs := by
  induction ps generalizing column offset with
  | nil => rfl
  | cons p ps ih =>
    obtain ⟨kind, chars⟩ := p
    have hrest := ih (column + chars.length) (offset + byteSize chars)
    rw [Nat.add_assoc, Nat.add_assoc, ← List.length_append, ← byteSize_append] at hrest
    cases kind with
    | none => exact hrest
    | some kind => simp only [List.cons_append, place, covered_cons, hrest]

theorem map_kind_place (line column offset : Nat) (ps : List Piece) :
    (place line column offset ps).map Token.kind = ps.filterMap Piece.kind := by
  induction ps generalizing column offset with
  | nil => rfl
  | cons p ps ih =>
    obtain ⟨kind, chars⟩ := p
    cases kind with
    | none => exact ih ..
    | some kind =>
      rw [place, List.map_cons, ih]
      rfl

/-- The piece that a token comes from, and the pieces of the tokens before it. -/
theorem exists_of_place_eq_append {line column offset : Nat} {ps : List Piece}
    {before after : List Token} {t : Token} (h : place line column offset ps = before ++ t :: after) :
    ∃ ps₁ kind chars ps₂, ps = ps₁ ++ ⟨some kind, chars⟩ :: ps₂ ∧
      place line column offset ps₁ = before ∧
      t = ⟨kind, String.ofList chars, line, column + (covered ps₁).length,
        offset + byteSize (covered ps₁)⟩ := by
  induction ps generalizing column offset before with
  | nil => simp [place] at h
  | cons p ps ih =>
    obtain ⟨kind, chars⟩ := p
    cases kind with
    | none =>
      obtain ⟨ps₁, k, cs, ps₂, rfl, hbefore, rfl⟩ := ih h
      refine ⟨⟨none, chars⟩ :: ps₁, k, cs, ps₂, rfl, hbefore, ?_⟩
      simp [covered_cons, byteSize_append, Nat.add_assoc]
    | some kind =>
      cases before with
      | nil => exact ⟨[], kind, chars, ps, rfl, rfl, (List.cons.inj h).1.symm⟩
      | cons b before =>
        obtain ⟨hb, hrest⟩ := List.cons.inj h
        obtain ⟨ps₁, k, cs, ps₂, rfl, hbefore, rfl⟩ := ih hrest
        refine ⟨⟨some kind, chars⟩ :: ps₁, k, cs, ps₂, rfl, ?_, ?_⟩
        · rw [← hbefore, ← hb]
          rfl
        · simp [covered_cons, byteSize_append, Nat.add_assoc]

/-- The pieces begin and end with a token. -/
structure Tight (ps : List Piece) : Prop where
  first : ∃ kind chars rest, ps = ⟨some kind, chars⟩ :: rest
  last : ∃ front kind chars, ps = front ++ [⟨some kind, chars⟩]

/-- Tokens of a line that stand one behind the other come from pieces that do. -/
theorem exists_segment {line column offset : Nat} {ps : List Piece} {before group after : List Token}
    (h : place line column offset ps = before ++ (group ++ after)) (hgroup : group ≠ []) :
    ∃ ps₁ ps₂ ps₃ column', ps = ps₁ ++ (ps₂ ++ ps₃) ∧ Tight ps₂ ∧
      group = place line column' (offset + byteSize (covered ps₁)) ps₂ := by
  obtain ⟨t, group', rfl⟩ := List.exists_cons_of_ne_nil hgroup
  -- the first token, and what follows it
  obtain ⟨ps₁, kind, chars, rest, rfl, hbefore, -⟩ := exists_of_place_eq_append h
  rw [place_append, hbefore] at h
  have hrest := List.append_cancel_left h
  -- the last token, which may be the first one too
  obtain ⟨front, u, hfront⟩ : ∃ front u, t :: group' = front ++ [u] :=
    ⟨_, _, (List.dropLast_concat_getLast hgroup).symm⟩
  rw [hfront, List.append_assoc] at hrest
  obtain ⟨ps₂, kind', chars', ps₃, hps, hplace, hu⟩ := exists_of_place_eq_append hrest
  have hsplit : ⟨some kind, chars⟩ :: rest = (ps₂ ++ [⟨some kind', chars'⟩]) ++ ps₃ := by
    rw [hps, List.append_assoc]
    rfl
  refine ⟨ps₁, ps₂ ++ [⟨some kind', chars'⟩], ps₃, column + (covered ps₁).length, by rw [hsplit],
    ⟨?_, ⟨_, _, _, rfl⟩⟩, ?_⟩
  · cases ps₂ with
    | nil => exact ⟨_, _, _, rfl⟩
    | cons p ps₂ =>
      obtain ⟨rfl, -⟩ := List.cons.inj hsplit
      exact ⟨_, _, _, rfl⟩
  · rw [hfront, place_append, hplace, hu]
    rfl

/-- The text that a call takes for tokens that come from such pieces. -/
theorem groupText_place {ps : List Piece} (h : Tight ps) (pre post : List Char) (line column : Nat) :
    Call.groupText (pre ++ covered ps ++ post) (place line column (byteSize pre) ps) =
      String.ofList (covered ps) := by
  obtain ⟨kind, chars, rest, hfirst⟩ := h.first
  obtain ⟨front, kind', chars', hlast⟩ := h.last
  have hhead : (place line column (byteSize pre) ps).head? =
      some ⟨kind, String.ofList chars, line, column, byteSize pre⟩ := by
    rw [hfirst]
    rfl
  have htail : (place line column (byteSize pre) ps).getLast? =
      some ⟨kind', String.ofList chars', line, column + (covered front).length,
        byteSize pre + byteSize (covered front)⟩ := by
    rw [hlast, place_append]
    exact List.getLast?_concat
  have hstop : byteSize pre + byteSize (covered front) + byteSize chars' =
      byteSize (pre ++ covered ps) := by
    rw [hlast, covered_append, byteSize_append, byteSize_append, Nat.add_assoc]
    simp [covered]
  have hinside : byteSize (pre ++ covered ps) ≤ byteSize (pre ++ covered ps ++ post) := by
    rw [byteSize_append _ post]
    exact Nat.le_add_right ..
  simp only [Call.groupText, hhead, htail, Call.groupStop, Token.stop, Token.size,
    String.toList_ofList, hstop, if_pos hinside, slice?_append]

end Lexer

/-- **Parts of a line can be read alone.** The text that a call takes for tokens which stand one behind
the other is cut into tokens of the same kinds and texts. -/
theorem tokenize_groupText {file : String} {n : Nat} {text : String} {tokens group : List Token}
    (h : tokenize file n text = .ok tokens) (hgroup : group <:+: tokens) :
    ∃ ts, tokenize file n (Call.groupText text.toList group) = .ok ts ∧
      ts.map Token.lexeme = group.map Token.lexeme := by
  obtain ⟨hnone, rfl⟩ := tokenize_eq_ok_iff.mp h
  obtain ⟨before, after, hplace⟩ := hgroup
  rw [List.append_assoc] at hplace
  by_cases hnil : group = []
  · subst hnil
    refine ⟨[], tokenize_eq_ok_iff.mpr ?_, rfl⟩
    simp [Call.groupText, Lexer.pieces, Lexer.place]
  · obtain ⟨ps₁, ps₂, ps₃, column, hpieces, htight, rfl⟩ := Lexer.exists_segment hplace.symm hnil
    have htext : text.toList = Lexer.covered ps₁ ++ Lexer.covered ps₂ ++ Lexer.covered ps₃ := by
      rw [← Lexer.pieces_flatten hnone, hpieces, Lexer.covered_append, Lexer.covered_append,
        List.append_assoc]
    have hsegment := Lexer.pieces_segment hpieces
    rw [htext, Nat.zero_add, Lexer.groupText_place htight]
    refine ⟨Lexer.place n 1 0 ps₂, tokenize_eq_ok_iff.mpr ?_, ?_⟩
    · rw [String.toList_ofList, hsegment]
      exact ⟨rfl, rfl⟩
    · exact (Lexer.map_place ..).trans (Lexer.map_place ..).symm

end MipsMacro

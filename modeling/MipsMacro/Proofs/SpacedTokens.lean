import MipsMacro.Proofs.RenamedLines

/-!
# Tokens with spaces between them

A dot, a dollar and a percent sign are told apart from the beginnings of names by the character behind
them. Proved here:

* `Lexer.opening_next`: this character matters only if the token goes on with it;
* `Lexer.standsAlone_of_piece`: so a token is the same wherever no character of a name follows it;
* `Lexer.pieces_spaced`: so tokens with spaces between them are cut where the spaces are;
* `tokenize_spaced`: so the tokens of a text are those of their own texts with spaces between them, and
  the text of a token tells its kind.
-/

namespace MipsMacro

open Text

namespace Lexer

theorem isIdentChar_of_isIdentStart {c : Char} (h : isIdentStart c = true) : isIdentChar c = true := by
  simp only [isIdentStart, Bool.or_eq_true] at h
  simp only [isIdentChar, Char.isAlphanum, Bool.or_eq_true]
  rcases h with h | h
  · exact Or.inl (Or.inl (Or.inl h))
  · exact Or.inl (Or.inr h)

/-- The next character opens nothing else than the end of the line would, or it belongs to the word that
it opens. -/
def IgnoresNext (c : Char) (next : Option Char) : Prop :=
  opening c next = opening c none ∨
    (∃ kind, opening c next = .word kind) ∧ next.any isIdentChar = true

theorem ignoresNext_of_sigil {c : Char} {kind : TokenKind} {starts : Char → Bool}
    (hstarts : ∀ d, starts d = true → isIdentChar d = true)
    (hopening : ∀ next, opening c next =
      if next.any starts then .word kind else .sign (punctuation c)) (next : Option Char) :
    IgnoresNext c next := by
  by_cases h : next.any starts = true
  · refine Or.inr ⟨⟨kind, by rw [hopening, if_pos h]⟩, ?_⟩
    cases next with
    | none => cases h
    | some d => exact hstarts d h
  · refine Or.inl ?_
    rw [hopening, if_neg h, hopening]
    rfl

theorem opening_next (c : Char) (next : Option Char) : IgnoresNext c next := by
  by_cases hdot : c = '.'
  · subst hdot
    exact ignoresNext_of_sigil (fun _ => isIdentChar_of_isIdentStart) (fun _ => rfl) next
  by_cases hdollar : c = '$'
  · subst hdollar
    exact ignoresNext_of_sigil (fun _ => id) (fun _ => rfl) next
  by_cases hpercent : c = '%'
  · subst hpercent
    exact ignoresNext_of_sigil (fun _ => id) (fun _ => rfl) next
  · refine Or.inl ?_
    simp only [opening, hdot, hdollar, hpercent, decide_false, Bool.false_and]

/-- Wherever the text stands and no character of a name follows it, it is a token of this kind. -/
def StandsAlone (kind : TokenKind) : List Char → Prop
  | [] => False
  | c :: tail => ∀ rest, rest.head?.any isIdentChar = false →
      piece c (tail ++ rest) = .ok (some kind, tail, rest)

theorem standsAlone_of_piece {c : Char} {cs tail rest : List Char} {kind : TokenKind}
    (h : piece c cs = .ok (some kind, tail, rest)) : StandsAlone kind (c :: tail) := by
  intro rest' hend
  have hopening : opening c (tail ++ rest').head? = opening c cs.head? := by
    have happ := piece_append h
    cases tail with
    | cons d tail => rw [← happ]; rfl
    | nil =>
      obtain rfl : rest = cs := happ
      -- a token of one character does not go on with the next one
      have halone : opening c rest.head? = opening c none := by
        rcases opening_next c rest.head? with heq | ⟨⟨k, hword⟩, hnext⟩
        · exact heq
        · rw [piece, hword] at h
          simp only [Opening.take, Except.ok.injEq, Prod.mk.injEq] at h
          have hstops := any_head?_dropWhile rest
          rw [h.2.2, hnext] at hstops
          cases hstops
      have halone' : opening c rest'.head? = opening c none := by
        rcases opening_next c rest'.head? with heq | ⟨-, hnext⟩
        · exact heq
        · rw [hend] at hnext
          cases hnext
      exact halone'.trans halone.symm
  unfold piece at h ⊢
  rw [hopening]
  exact Opening.take_append_right h fun _ _ => hend

theorem standsAlone_of_mem_tokens {file : String} {n : Nat} {text : String} {tokens : List Token}
    (h : tokenize file n text = .ok tokens) {t : Token} (ht : t ∈ tokens) :
    StandsAlone t.kind t.text.toList := by
  obtain ⟨p, hp, hkind, hchars⟩ := exists_piece_of_mem_tokens h ht
  obtain ⟨c, cs, tail, rest, hcons, hpiece⟩ := exists_of_mem_pieces hp
  rw [hkind] at hpiece
  rw [← hchars, hcons]
  exact standsAlone_of_piece hpiece

namespace StandsAlone

theorem pieces_eq {kind : TokenKind} {w : List Char} (h : StandsAlone kind w) (rest : List Char)
    (hend : rest.head?.any isIdentChar = false) :
    pieces (w ++ rest) = (⟨some kind, w⟩ :: (pieces rest).1, (pieces rest).2) := by
  cases w with
  | nil => cases h
  | cons c tail => rw [List.cons_append, pieces_cons, h rest hend]

/-- A text is a token of one kind only. -/
theorem kind_eq {kind kind' : TokenKind} {w : List Char} (h : StandsAlone kind w)
    (h' : StandsAlone kind' w) : kind = kind' := by
  have heq := (h.pieces_eq [] rfl).symm.trans (h'.pieces_eq [] rfl)
  simpa using heq

end StandsAlone

/-! ## Spaces -/

/-- Tokens with spaces between them are cut into these tokens again. -/
theorem pieces_spaced {ts : List Token} (h : ∀ t ∈ ts, StandsAlone t.kind t.text.toList) :
    (pieces ([' '].intercalate (ts.map (·.text.toList)))).2 = none ∧
      (pieces ([' '].intercalate (ts.map (·.text.toList)))).1.filterMap Piece.lexeme? =
        ts.map fun t => (t.kind, t.text) := by
  induction ts with
  | nil => simp [pieces]
  | cons t ts ih =>
    obtain ⟨ht, hts⟩ := List.forall_mem_cons.mp h
    obtain ⟨hnone, hrest⟩ := ih hts
    cases ts with
    | nil =>
      have hpieces := ht.pieces_eq [] rfl
      rw [List.append_nil] at hpieces
      simp [hpieces, pieces, Piece.lexeme?]
    | cons u ts =>
      have hsplit : [' '].intercalate ((t :: u :: ts).map (·.text.toList)) =
          t.text.toList ++ ([' '] ++ [' '].intercalate ((u :: ts).map (·.text.toList))) := by
        simp only [List.map_cons, List.intercalate_cons_cons, List.append_assoc]
      have hblank : ∀ c ∈ [' '], isBlank c = true := by simp [isBlank]
      rw [hsplit, ht.pieces_eq _ rfl, pieces_blanks hblank]
      refine ⟨hnone, ?_⟩
      simpa [Piece.lexeme?] using hrest

end Lexer

/-- **Tokens are stable.** The texts of the tokens of a text, with a space between each two of them, are cut
into tokens of the same kinds and texts; and tokens with one text, wherever they stand, are of one
kind. -/
theorem tokenize_spaced (file : String) (n : Nat) (text : String) (tokens : List Token)
    (h : tokenize file n text = .ok tokens) (file' : String) (n' : Nat) :
    (∃ tokens', tokenize file' n' (" ".intercalate (tokens.map Token.text)) = .ok tokens' ∧
        tokens'.map (fun t => (t.kind, t.text)) = tokens.map fun t => (t.kind, t.text)) ∧
      ∀ text' tokens', tokenize file' n' text' = .ok tokens' →
        ∀ t ∈ tokens, ∀ t' ∈ tokens', t'.text = t.text → t'.kind = t.kind := by
  constructor
  · obtain ⟨hnone, hlexemes⟩ :=
      Lexer.pieces_spaced fun t ht => Lexer.standsAlone_of_mem_tokens h ht
    have hchars : (" ".intercalate (tokens.map Token.text)).toList =
        [' '].intercalate (tokens.map (·.text.toList)) := by
      rw [String.toList_intercalate, List.map_map]
      rfl
    refine ⟨_, tokenize_eq_ok_iff.mpr ⟨hchars ▸ hnone, rfl⟩, ?_⟩
    rw [Lexer.map_place, hchars, hlexemes]
  · intro text' tokens' h' t ht t' ht' htext
    have hstands := Lexer.standsAlone_of_mem_tokens h' ht'
    rw [htext] at hstands
    exact hstands.kind_eq (Lexer.standsAlone_of_mem_tokens h ht)

/-- Signs in front of signs, a dot in front of a digit, and literals that hold a space, a comment sign and
their own quotes. -/
def crowdedText : String := "l:.5$%.x\"# \\\"\"'\\'' $# \""

def crowdedTokens : List Token :=
  [⟨.identifier, "l", 1, 1, 0⟩, ⟨.colon, ":", 1, 2, 1⟩, ⟨.operator, ".", 1, 3, 2⟩,
    ⟨.integer, "5", 1, 4, 3⟩, ⟨.operator, "$", 1, 5, 4⟩, ⟨.parameter, "%.x", 1, 6, 5⟩,
    ⟨.string, "\"# \\\"\"", 1, 9, 8⟩, ⟨.character, "'\\''", 1, 15, 14⟩,
    ⟨.operator, "$", 1, 20, 19⟩]

theorem tokenize_spaced_crowded :
    tokenize "m.asm" 1 crowdedText = .ok crowdedTokens ∧
      (∃ tokens, tokenize "n.asm" 2 "l : . 5 $ %.x \"# \\\"\" '\\'' $" = .ok tokens ∧
        tokens.map (fun t => (t.kind, t.text)) = crowdedTokens.map fun t => (t.kind, t.text)) ∧
      ∀ t ∈ crowdedTokens, "$" = t.text → TokenKind.operator = t.kind := by
  have htokens : tokenize "m.asm" 1 crowdedText = .ok crowdedTokens :=
    tokenize_eq_ok_iff.mpr ⟨by decide +kernel, by decide +kernel⟩
  have hsign : tokenize "n.asm" 2 "$" = .ok [⟨.operator, "$", 2, 1, 0⟩] :=
    tokenize_eq_ok_iff.mpr ⟨by decide +kernel, by decide +kernel⟩
  have hspaced : " ".intercalate (crowdedTokens.map Token.text) =
      "l : . 5 $ %.x \"# \\\"\" '\\'' $" := by decide +kernel
  obtain ⟨hstable, hkind⟩ := tokenize_spaced "m.asm" 1 crowdedText crowdedTokens htokens "n.asm" 2
  rw [hspaced] at hstable
  exact ⟨htokens, hstable, fun t ht => hkind "$" _ hsign t ht _ (List.mem_cons_self ..)⟩

end MipsMacro

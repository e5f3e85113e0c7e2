import MipsMacro.Proofs.Call
import MipsMacro.Proofs.LexedLine

/-!
# Labels as the lexer sees them

Proved here:

* `fits_of_mem_tokens`: the identifiers are the tokens that are words, and a colon is a colon;
* `Lexer.pieces_blanks`, `Lexer.pieces_word`, `Lexer.pieces_sign`: and a text that begins with
  blanks, a word or a sign is cut behind them;
* `Lexer.exists_splitLabels_label`: so a word with a colon behind it leads a line as a label, whatever
  follows;
* `Lexer.labels_isPrefix`: so a line keeps its leading labels if their names are replaced by other
  words, whatever is done to the rest of it.
-/

namespace MipsMacro

open Text

/-! ## What tokens look like -/

/-- The texts of identifiers. -/
def Lexer.IsWord : List Char → Prop
  | [] => False
  | c :: cs => isIdentStart c = true ∧ ∀ d ∈ cs, isIdentChar d = true

theorem Lexer.IsWord.append {w more : List Char} (h : IsWord w)
    (hmore : ∀ c ∈ more, isIdentChar c = true) : IsWord (w ++ more) := by
  cases w with
  | nil => cases h
  | cons c w =>
    refine ⟨h.1, fun d hd => ?_⟩
    rcases List.mem_append.mp hd with hd | hd
    · exact h.2 d hd
    · exact hmore d hd

/-- What the text of a token looks like, as far as it matters for labels. -/
structure TokenKind.Fits (kind : TokenKind) (chars : List Char) : Prop where
  identifier_iff : kind = .identifier ↔ Lexer.IsWord chars
  colon : kind = .colon → chars = [':']

namespace Lexer

theorem isDigit_of_isIdentStart {c : Char} (h : isIdentStart c = true) : c.isDigit = false := by
  have hupper : c.isUpper = decide (65 ≤ c.val.toNat ∧ c.val.toNat ≤ 90) := rfl
  have hlower : c.isLower = (decide (97 ≤ c.val.toNat) && decide (c.val.toNat ≤ 122)) := rfl
  have hdigit : c.isDigit = (decide (48 ≤ c.val.toNat) && decide (c.val.toNat ≤ 57)) := rfl
  have halpha : c.isAlpha = (c.isUpper || c.isLower) := rfl
  simp only [isIdentStart, halpha, hupper, hlower, Bool.or_eq_true, Bool.and_eq_true,
    decide_eq_true_eq, beq_iff_eq] at h
  rw [hdigit, Bool.eq_false_iff, Ne, Bool.and_eq_true, decide_eq_true_eq, decide_eq_true_eq]
  rcases h with (h | h) | rfl
  · omega
  · omega
  · decide

theorem opening_of_isIdentStart {c : Char} (h : isIdentStart c = true) (next : Option Char) :
    opening c next = .word .identifier := by
  have hne : ∀ d, isIdentStart d = false → c ≠ d := by
    rintro d hd rfl
    rw [hd] at h
    cases h
  have hblank : ¬ isBlank c = true := by
    intro hblank
    simp only [isBlank, Bool.or_eq_true, beq_iff_eq] at hblank
    rcases hblank with ((rfl | rfl) | rfl) | rfl <;> exact absurd h (by decide)
  have hsigned : ∀ d b, isIdentStart d = false → ¬ (decide (c = d) && b) = true := by
    intro d b hd
    simp [hne d hd]
  have hdigit : ¬ c.isDigit = true := by simp [isDigit_of_isIdentStart h]
  rw [opening, if_neg hblank, if_neg (hne '#' (by decide)), if_neg (hne '\x22' (by decide)),
    if_neg (hne '\x27' (by decide)), if_neg (hsigned '.' _ (by decide)),
    if_neg (hsigned '$' _ (by decide)), if_neg (hsigned '%' _ (by decide)), if_neg hdigit, if_pos h]

theorem opening_of_isBlank {c : Char} (h : isBlank c = true) (next : Option Char) :
    opening c next = .blank :=
  if_pos h

/-- No other character opens an identifier, and only a colon opens a colon. -/
def Opening.Starts (c : Char) : Opening → Prop
  | word kind => (kind = .identifier → isIdentStart c = true) ∧ kind ≠ .colon
  | sign kind => (kind = .colon → c = ':') ∧ kind ≠ .identifier
  | _ => True

theorem punctuation_starts (c : Char) : (Opening.sign (punctuation c)).Starts c := by
  unfold punctuation
  split
  · exact ⟨nofun, nofun⟩
  split
  · next hcolon => exact ⟨fun _ => hcolon, nofun⟩
  split
  · exact ⟨nofun, nofun⟩
  split
  · exact ⟨nofun, nofun⟩
  split
  · exact ⟨nofun, nofun⟩
  split
  · exact ⟨nofun, nofun⟩
  · exact ⟨nofun, nofun⟩

theorem opening_starts (c : Char) (next : Option Char) : (opening c next).Starts c := by
  -- only words of names are identifiers, and only signs are colons
  refine opening_cases c next (fun _ => trivial) (fun _ => trivial) (fun _ _ => trivial) ?_ ?_ ?_ ?_
    (fun _ hstart => ⟨fun _ => hstart, nofun⟩) (fun _ => punctuation_starts c)
  all_goals exact fun _ _ => ⟨nofun, nofun⟩

theorem fits_of_piece {c : Char} {cs tail rest : List Char} {kind : TokenKind}
    (h : piece c cs = .ok (some kind, tail, rest)) : kind.Fits (c :: tail) := by
  by_cases hstart : isIdentStart c = true
  · rw [piece, opening_of_isIdentStart hstart] at h
    cases h
    have hword : IsWord (c :: cs.takeWhile isIdentChar) :=
      ⟨hstart, fun d hd => List.all_eq_true.mp List.all_takeWhile d hd⟩
    exact ⟨iff_of_true rfl hword, fun hcolon => by cases hcolon⟩
  · have hword : ¬ IsWord (c :: tail) := fun hw => hstart hw.1
    have hstarts := opening_starts c cs.head?
    unfold piece at h
    cases ho : opening c cs.head? with
    | blank =>
      rw [ho] at h
      cases h
    | comment =>
      rw [ho] at h
      cases h
    | quote q =>
      rw [ho, Opening.take] at h
      split at h
      · cases h
        have hkind : q.kind ≠ .identifier ∧ q.kind ≠ .colon := by cases q <;> simp [Quote.kind]
        exact ⟨iff_of_false hkind.1 hword, fun hcolon => absurd hcolon hkind.2⟩
      · cases h
    | word k =>
      rw [ho] at h hstarts
      cases h
      exact ⟨iff_of_false (fun hk => hstart (hstarts.1 hk)) hword,
        fun hcolon => absurd hcolon hstarts.2⟩
    | sign k =>
      rw [ho] at h hstarts
      cases h
      exact ⟨iff_of_false hstarts.2 hword, fun hcolon => congrArg (fun d => [d]) (hstarts.1 hcolon)⟩

theorem fits_of_mem_pieces {cs : List Char} {p : Piece} (h : p ∈ (pieces cs).1) {kind : TokenKind}
    (hkind : p.kind = some kind) : kind.Fits p.chars := by
  obtain ⟨c, cs', tail, rest, hchars, hpiece⟩ := exists_of_mem_pieces h
  rw [hkind] at hpiece
  rw [hchars]
  exact fits_of_piece hpiece

theorem exists_piece_of_mem_place {line column offset : Nat} {ps : List Piece} {t : Token}
    (h : t ∈ place line column offset ps) :
    ∃ p ∈ ps, p.kind = some t.kind ∧ p.chars = t.text.toList := by
  induction ps generalizing column offset with
  | nil => cases h
  | cons p ps ih =>
    obtain ⟨kind, chars⟩ := p
    cases kind with
    | none =>
      obtain ⟨q, hq, hfound⟩ := ih h
      exact ⟨q, List.mem_cons_of_mem _ hq, hfound⟩
    | some kind =>
      rcases List.mem_cons.mp h with rfl | h
      · exact ⟨_, List.mem_cons_self .., rfl, String.toList_ofList.symm⟩
      · obtain ⟨q, hq, hfound⟩ := ih h
        exact ⟨q, List.mem_cons_of_mem _ hq, hfound⟩

end Lexer

theorem exists_piece_of_mem_tokens {file : String} {n : Nat} {text : String} {tokens : List Token}
    (h : tokenize file n text = .ok tokens) {t : Token} (ht : t ∈ tokens) :
    ∃ p ∈ (Lexer.pieces text.toList).1, p.kind = some t.kind ∧ p.chars = t.text.toList := by
  rw [(tokenize_eq_ok_iff.mp h).2] at ht
  exact Lexer.exists_piece_of_mem_place ht

theorem fits_of_mem_tokens {file : String} {n : Nat} {text : String} {tokens : List Token}
    (h : tokenize file n text = .ok tokens) {t : Token} (ht : t ∈ tokens) :
    t.kind.Fits t.text.toList := by
  obtain ⟨p, hp, hkind, hchars⟩ := exists_piece_of_mem_tokens h ht
  rw [← hchars]
  exact Lexer.fits_of_mem_pieces hp hkind

/-- The spans up to the first token and those behind it. -/
theorem Span.exists_of_tokens_eq_cons {spans : List Span} {t : Token} {ts : List Token}
    (h : tokens spans = t :: ts) :
    ∃ gaps rest, spans = gaps ++ token t :: rest ∧ (∀ s ∈ gaps, s.token? = none) ∧
      tokens rest = ts := by
  obtain ⟨gaps, s, rest, rfl, hgaps, hs, hrest⟩ := List.filterMap_eq_cons_iff.mp h
  cases s with
  | gap cs => cases hs
  | token u =>
    cases hs
    exact ⟨gaps, rest, rfl, hgaps, hrest⟩

namespace Lexer

/-! ## Cutting at the front -/

theorem pieces_blanks {blanks : List Char} (h : ∀ c ∈ blanks, isBlank c = true) (cs : List Char) :
    pieces (blanks ++ cs) = (blanks.map (⟨none, [·]⟩) ++ (pieces cs).1, (pieces cs).2) := by
  induction blanks with
  | nil => rfl
  | cons c blanks ih =>
    have hpiece : piece c (blanks ++ cs) = .ok (none, [], blanks ++ cs) := by
      rw [piece, opening_of_isBlank (h c (List.mem_cons_self ..))]
      rfl
    have hrest := ih fun d hd => h d (List.mem_cons_of_mem _ hd)
    rw [List.cons_append, pieces_cons, hpiece]
    simp [hrest]

theorem span_word {w cs : List Char} (hw : ∀ c ∈ w, isIdentChar c = true)
    (hend : cs.head?.any isIdentChar = false) :
    (w ++ cs).takeWhile isIdentChar = w ∧ (w ++ cs).dropWhile isIdentChar = cs := by
  rw [List.takeWhile_append_of_pos hw, List.dropWhile_append_of_pos hw]
  cases cs with
  | nil => simp
  | cons c cs =>
    have hc : isIdentChar c = false := hend
    simp [hc]

theorem piece_word {c : Char} {w cs : List Char} (hw : IsWord (c :: w))
    (hend : cs.head?.any isIdentChar = false) :
    piece c (w ++ cs) = .ok (some .identifier, w, cs) := by
  simp [piece, opening_of_isIdentStart hw.1, Opening.take, span_word hw.2 hend]

theorem pieces_word {w cs : List Char} (hw : IsWord w) (hend : cs.head?.any isIdentChar = false) :
    pieces (w ++ cs) = (⟨some .identifier, w⟩ :: (pieces cs).1, (pieces cs).2) := by
  cases w with
  | nil => cases hw
  | cons c w => rw [List.cons_append, pieces_cons, piece_word hw hend]

theorem pieces_sign {c : Char} (kind : TokenKind) (cs : List Char)
    (h : opening c cs.head? = .sign kind) :
    pieces (c :: cs) = (⟨some kind, [c]⟩ :: (pieces cs).1, (pieces cs).2) := by
  have hpiece : piece c cs = .ok (some kind, [], cs) := by
    rw [piece, h]
    rfl
  rw [pieces_cons, hpiece]

/-- Blanks only move what is behind them. -/
theorem exists_place_blanks (line column offset : Nat) (blanks : List Char) (ps : List Piece) :
    ∃ column' offset', place line column offset (blanks.map (⟨none, [·]⟩) ++ ps) =
      place line column' offset' ps := by
  induction blanks generalizing column offset with
  | nil => exact ⟨column, offset, rfl⟩
  | cons c blanks ih => exact ih (column + 1) (offset + byteSize [c])

/-! ## Leading labels -/

theorem isIdentChar_of_isBlank {c : Char} (h : isBlank c = true) : isIdentChar c = false := by
  simp only [isBlank, Bool.or_eq_true, beq_iff_eq] at h
  rcases h with ((rfl | rfl) | rfl) | rfl <;> decide

theorem exists_splitLabels_label {blanks blanks' w : List Char}
    (hblanks : ∀ c ∈ blanks, isBlank c = true) (hblanks' : ∀ c ∈ blanks', isBlank c = true)
    (hw : IsWord w) (cs : List Char) (line column offset : Nat) :
    ∃ column' offset',
      (splitLabels (place line column offset
          (pieces (blanks ++ (w ++ (blanks' ++ ':' :: cs)))).1)).1 =
        String.ofList w :: (splitLabels (place line column' offset' (pieces cs).1)).1 := by
  -- the word ends at a blank or at the colon
  have hend : (blanks' ++ ':' :: cs).head?.any isIdentChar = false := by
    cases blanks' with
    | nil => rfl
    | cons c blanks' => exact isIdentChar_of_isBlank (hblanks' c (List.mem_cons_self ..))
  rw [pieces_blanks hblanks, pieces_word hw hend, pieces_blanks hblanks', pieces_sign .colon _ rfl]
  obtain ⟨column₁, offset₁, hplace₁⟩ := exists_place_blanks line column offset blanks
    (⟨some .identifier, w⟩ :: (blanks'.map (⟨none, [·]⟩) ++ ⟨some .colon, [':']⟩ :: (pieces cs).1))
  obtain ⟨column₂, offset₂, hplace₂⟩ := exists_place_blanks line (column₁ + w.length)
    (offset₁ + byteSize w) blanks' (⟨some .colon, [':']⟩ :: (pieces cs).1)
  refine ⟨column₂ + 1, offset₂ + byteSize [':'], ?_⟩
  rw [hplace₁, place]
  simp only [hplace₂]
  simp [place, splitLabels]

/-- Spans without tokens are blanks. -/
theorem blank_render {f : Token → List Char} {spans : List Span}
    (hblank : ∀ cs, Span.gap cs ∈ spans → ∀ c ∈ cs, isBlank c = true)
    (h : ∀ s ∈ spans, s.token? = none) : ∀ c ∈ Span.render f spans, isBlank c = true := by
  intro c hc
  obtain ⟨s, hs, hc⟩ := List.mem_flatMap.mp hc
  cases s with
  | gap cs => exact hblank cs hs c hc
  | token t => cases h _ hs

/-- The names of the leading labels of a line are replaced by words and their colons are not replaced.
Then the new names lead the new line. -/
theorem labels_isPrefix {f : Token → List Char} {g : String → String} {P : String → Prop}
    {spans : List Span} (hblank : ∀ cs, Span.gap cs ∈ spans → ∀ c ∈ cs, isBlank c = true)
    (hlabels : ∀ l ∈ (splitLabels (Span.tokens spans)).1, P l)
    (hname : ∀ t ∈ Span.tokens spans, t.kind = .identifier → P t.text →
      f t = (g t.text).toList ∧ IsWord (f t))
    (hcolon : ∀ t ∈ Span.tokens spans, t.kind = .colon → f t = [':'])
    (rest : List Char) (line column offset : Nat) :
    (splitLabels (Span.tokens spans)).1.map g <+:
      (splitLabels (place line column offset (pieces (Span.render f spans ++ rest)).1)).1 := by
  generalize htokens : Span.tokens spans = tokens at hlabels hname hcolon ⊢
  fun_induction splitLabels tokens generalizing spans column offset with
  | case1 name colon tail hkinds labels body hsplit ih =>
    rw [hsplit] at ih
    obtain ⟨gaps, spans₁, rfl, hgaps, htokens₁⟩ := Span.exists_of_tokens_eq_cons htokens
    obtain ⟨gaps', spans₂, rfl, hgaps', htokens₂⟩ := Span.exists_of_tokens_eq_cons htokens₁
    simp only [List.forall_mem_cons] at hlabels hname hcolon
    obtain ⟨hnew, hword⟩ := hname.1 hkinds.1 hlabels.1
    have hrender : Span.render f (gaps ++ .token name :: (gaps' ++ .token colon :: spans₂)) ++ rest =
        Span.render f gaps ++ (f name ++ (Span.render f gaps' ++ ':' ::
          (Span.render f spans₂ ++ rest))) := by
      simp [Span.render_append, hcolon.2.1 hkinds.2]
    obtain ⟨column', offset', hfirst⟩ := exists_splitLabels_label
      (blank_render (fun cs hcs => hblank cs (by simp [hcs])) hgaps)
      (blank_render (fun cs hcs => hblank cs (by simp [hcs])) hgaps') hword
      (Span.render f spans₂ ++ rest) line column offset
    rw [hrender, hfirst, hnew, String.ofList_toList, List.map_cons, List.cons_prefix_cons]
    refine ⟨rfl, ih (fun cs hcs => hblank cs (by simp [hcs])) column' offset' htokens₂ hlabels.2
      hname.2.2 hcolon.2.2⟩
  | case2 name colon tail hkinds => exact List.nil_prefix
  | case3 tokens hshort => exact List.nil_prefix

end Lexer

end MipsMacro

import MipsMacro.Proofs.LexedLine

/-!
# Lexing loses nothing

The lexer moves three counters along a line: characters, columns and bytes. Proved here, for texts with
any characters in them:

* `Lexer.fills_of_spans`: between the tokens of a line that has been read there are blanks, and behind
  the last of them blanks and perhaps a comment;
* `tokenize_lossless`: so the tokens, each at its column and its offset, account for the whole text.
-/

namespace MipsMacro

open Text

namespace Lexer

theorem isBlank_iff (c : Char) : isBlank c = true ↔ c ∈ [' ', '\t', '\r', '\n'] := by
  simp [isBlank, or_assoc]

/-- From the byte `start` on, the text is filled by the tokens, by blanks in front of each of them, and
behind the last by blanks and perhaps a comment. -/
def Fills (text : List Char) : Nat → List Token → Prop
  | start, [] => ∃ blanks comment,
      slice? text start (byteSize text) = some (blanks ++ comment) ∧
        (∀ c ∈ blanks, c ∈ [' ', '\t', '\r', '\n']) ∧
        (comment = [] ∨ ∃ rest, comment = '#' :: rest)
  | start, t :: ts =>
      (∃ blanks, slice? text start t.offset = some blanks ∧
        ∀ c ∈ blanks, c ∈ [' ', '\t', '\r', '\n']) ∧
      Fills text t.stop ts

/-- The tokens account for the whole text, which stands on the given line. -/
structure Lossless (line : Nat) (text : List Char) (tokens : List Token) : Prop where
  increasing : tokens.Pairwise fun a b => a.offset < b.offset
  apart : tokens.Pairwise fun a b => a.stop ≤ b.offset
  nonempty : ∀ t ∈ tokens, t.text ≠ ""
  line_eq : ∀ t ∈ tokens, t.line = line
  held : ∀ t ∈ tokens, slice? text t.offset t.stop = some t.text.toList
  column_eq : ∀ t ∈ tokens, ∃ pre, slice? text 0 t.offset = some pre ∧ t.column = 1 + pre.length
  filled : Fills text 0 tokens

/-- Spans fill what is behind `pre`, also with blanks in front of them that belong to the same gap as
their first. -/
theorem fills_of_spans {text comment : List Char} {spans : List Span} (pre blanks : List Char)
    (htext : text = pre ++ blanks ++ Span.render (·.text.toList) spans ++ comment)
    (hblanks : ∀ c ∈ blanks, isBlank c = true)
    (hgaps : ∀ cs, Span.gap cs ∈ spans → ∀ c ∈ cs, isBlank c = true)
    (hplaced : Span.Placed (byteSize (pre ++ blanks)) spans)
    (hcomment : comment = [] ∨ ∃ rest, comment = '#' :: rest) :
    Fills text (byteSize pre) (Span.tokens spans) := by
  induction spans generalizing pre blanks with
  | nil =>
    refine ⟨blanks, comment, ?_, fun c hc => (isBlank_iff c).mp (hblanks c hc), hcomment⟩
    have hslice := slice?_append pre (blanks ++ comment) []
    simpa [htext] using hslice
  | cons s spans ih =>
    have hgaps' : ∀ cs, Span.gap cs ∈ spans → ∀ c ∈ cs, isBlank c = true :=
      fun cs hcs => hgaps cs (List.mem_cons_of_mem _ hcs)
    cases s with
    | gap cs =>
      have hmore : ∀ c ∈ blanks ++ cs, isBlank c = true := by
        intro c hc
        rcases List.mem_append.mp hc with hc | hc
        · exact hblanks c hc
        · exact hgaps cs (List.mem_cons_self ..) c hc
      refine ih pre (blanks ++ cs) ?_ hmore hgaps' ?_
      · rw [htext, Span.render_gap]
        simp
      · rw [← List.append_assoc, byteSize_append]
        exact hplaced
    | token t =>
      obtain ⟨hoffset, -, hplaced⟩ := hplaced
      have hstop : t.stop = byteSize (pre ++ blanks ++ t.text.toList) := by
        rw [Token.stop, Token.size, hoffset, ← byteSize_append]
      rw [Span.tokens_token]
      refine ⟨⟨blanks, ?_, fun c hc => (isBlank_iff c).mp (hblanks c hc)⟩, ?_⟩
      · have hslice := slice?_append pre blanks
          (t.text.toList ++ Span.render (·.text.toList) spans ++ comment)
        rw [hoffset, ← hslice, htext, Span.render_token]
        simp
      · rw [hstop]
        refine ih (pre ++ blanks ++ t.text.toList) [] ?_ (by simp) hgaps' ?_
        · rw [htext, Span.render_token]
          simp
        · rw [List.append_nil, byteSize_append]
          exact hplaced

end Lexer

/-- **Lexing loses nothing.** The tokens of a text stand one behind the other. Each has the number of its
line and the text that stands at its offset, and its column counts the characters in front of it. What
belongs to no token is blanks, and a comment behind the last. -/
theorem tokenize_lossless (file : String) (n : Nat) (text : String) (tokens : List Token)
    (h : tokenize file n text = .ok tokens) : Lexer.Lossless n text.toList tokens := by
  obtain ⟨l⟩ := LexedLine.ofTokenize h
  obtain ⟨hnone, hplace⟩ := tokenize_eq_ok_iff.mp h
  -- every token is cut out of the text behind as many characters and bytes as it says
  have hstands : ∀ t ∈ tokens, t.line = n ∧ ∃ pre post,
      text.toList = pre ++ t.text.toList ++ post ∧ t.column = 1 + pre.length ∧
        t.offset = byteSize pre := by
    intro t ht
    rw [hplace] at ht
    obtain ⟨hline, -, pre, post, hcut, hcolumn, hoffset⟩ :=
      Lexer.stands_of_mem_place (fun _ => Lexer.ne_nil_of_mem_pieces) ht
    rw [Lexer.pieces_flatten hnone] at hcut
    exact ⟨hline, pre, post, hcut, hcolumn, by omega⟩
  constructor
  case increasing => exact l.tokens_eq ▸ l.placed.increasing
  case apart => exact l.tokens_eq ▸ l.placed.apart.2
  case nonempty => exact l.tokens_eq ▸ l.placed.nonempty
  case line_eq => exact fun t ht => (hstands t ht).1
  case held =>
    intro t ht
    obtain ⟨-, pre, post, hcut, -, hoffset⟩ := hstands t ht
    rw [hcut, Token.stop, Token.size, hoffset, ← byteSize_append]
    exact slice?_append pre t.text.toList post
  case column_eq =>
    intro t ht
    obtain ⟨-, pre, post, hcut, hcolumn, hoffset⟩ := hstands t ht
    refine ⟨pre, ?_, hcolumn⟩
    rw [hcut, hoffset, List.append_assoc]
    exact slice?_append [] pre (t.text.toList ++ post)
  case filled =>
    have htext : text.toList = [] ++ [] ++ Span.render (·.text.toList) l.spans ++ l.comment :=
      l.source.symm
    have hfills := Lexer.fills_of_spans [] [] htext (by simp) l.blank l.placed l.comment_eq
    rw [l.tokens_eq] at hfills
    exact hfills

/-- A literal that holds an escaped quote, a comment sign and a line end, between characters of more than
one byte, and a comment behind a carriage return. -/
def gluedText : String := "é\t\"\\\"#\n\"%x:\r# 'é"

def gluedTokens : List Token :=
  [⟨.operator, "é", 3, 1, 0⟩, ⟨.string, "\"\\\"#\n\"", 3, 3, 3⟩, ⟨.parameter, "%x", 3, 9, 9⟩,
    ⟨.colon, ":", 3, 11, 11⟩]

theorem tokenize_lossless_glued :
    tokenize "m.asm" 3 gluedText = .ok gluedTokens ∧
      Lexer.Lossless 3 gluedText.toList gluedTokens := by
  have htokens : tokenize "m.asm" 3 gluedText = .ok gluedTokens :=
    tokenize_eq_ok_iff.mpr ⟨by decide +kernel, by decide +kernel⟩
  exact ⟨htokens, tokenize_lossless "m.asm" 3 gluedText gluedTokens htokens⟩

end MipsMacro

import MipsMacro.Call
import MipsMacro.Proofs.SourceText

/-!
# Texts cut out of a line

A text that is cut out of a line at the borders of its tokens can stand outside of literals and
comments anywhere else. Proved here, for lines that the lexer has read:

* `LexedLine.neutral_slice`: what lies between the start of a token and the end of one is neutral;
* `LexedLine.neutral_groupText`: so the text of any group of its tokens is;
* `LexedLine.closes_replace`: with neutral texts in the place of its tokens the line still leaves
  nothing open.
-/

namespace MipsMacro

open Text Quoting

/-! ## Neutral texts one after the other -/

theorem Quoting.Neutral.flatMap {α : Type} {xs : List α} {f : α → List Char}
    (h : ∀ x ∈ xs, Neutral (f x)) : Neutral (xs.flatMap f) := by
  induction xs with
  | nil => rfl
  | cons x xs ih =>
    rw [List.flatMap_cons]
    exact (h x (List.mem_cons_self ..)).append (ih fun y hy => h y (List.mem_cons_of_mem _ hy))

theorem Quoting.Neutral.join {texts : List String} (h : ∀ t ∈ texts, Neutral t.toList) :
    Neutral (String.join texts).toList := by
  rw [String.toList_join]
  exact Neutral.flatMap h

theorem Span.mem_tokens {t : Token} {spans : List Span} : t ∈ tokens spans ↔ token t ∈ spans := by
  induction spans with
  | nil => simp
  | cons s spans ih => cases s <;> simp [ih]

theorem Span.neutral_render {f : Token → List Char} {spans : List Span}
    (hblank : ∀ cs, gap cs ∈ spans → ∀ c ∈ cs, Lexer.isBlank c = true)
    (htokens : ∀ t ∈ tokens spans, Neutral (f t)) : Neutral (render f spans) := by
  refine Neutral.flatMap fun s hs => ?_
  cases s with
  | gap cs => exact neutral_of_isInert fun c hc => Lexer.isInert_of_isBlank (hblank cs hs c hc)
  | token t => exact htokens t (mem_tokens.mpr hs)

/-! ## Offsets -/

theorem Span.Placed.offset_eq {start : Nat} {before after : List Span} {t : Token}
    (h : Placed start (before ++ token t :: after)) :
    t.offset = start + byteSize (render (·.text.toList) before) := by
  induction before generalizing start with
  | nil => simpa [byteSize] using h.1
  | cons s before ih =>
    cases s with
    | gap cs =>
      rw [ih h, render_gap, byteSize_append]
      omega
    | token u =>
      rw [ih h.2.2, render_token, byteSize_append, Token.size]
      omega

namespace LexedLine

variable {text : List Char} {tokens : List Token} (l : LexedLine text tokens)

theorem mem_spans {t : Token} : Span.token t ∈ l.spans ↔ t ∈ tokens := by
  rw [← Span.mem_tokens, l.tokens_eq]

include l in
theorem mem_of_mem_token {t : Token} (ht : t ∈ tokens) {c : Char} (hc : c ∈ t.text.toList) :
    c ∈ text := by
  rw [← l.source]
  exact List.mem_append_left _ (List.mem_flatMap.mpr ⟨.token t, l.mem_spans.mpr ht, hc⟩)

variable (hline : '\n' ∉ text)

include l hline

theorem neutral_token {t : Token} (ht : t ∈ tokens) : Neutral t.text.toList := by
  have hnewline : '\n' ∉ t.text.toList := fun hmem => hline (l.mem_of_mem_token ht hmem)
  rw [Neutral, read_eq_run _ hnewline, l.closed t ht]

/-- The comment may hold anything, but it is the last thing on its line. -/
theorem closes_comment : Closes l.comment := by
  rcases l.comment_eq with hnil | ⟨rest, hcomment⟩
  · rw [hnil]
    exact ⟨top, rfl, rfl⟩
  · have hnewline : '\n' ∉ l.comment := by
      intro hmem
      refine hline ?_
      rw [← l.source]
      exact List.mem_append_right _ hmem
    refine ⟨.comment, ?_, rfl⟩
    rw [read_eq_run _ hnewline, hcomment]
    exact congrArg some (run_comment rest)

theorem closes_replace {f : Token → String} (h : ∀ t ∈ tokens, Neutral (f t).toList) :
    Closes (l.layout.replace f).toList := by
  rw [l.replace_layout]
  refine (Span.neutral_render l.blank fun t ht => ?_).closes (l.closes_comment hline)
  rw [l.tokens_eq] at ht
  exact h t ht

/-- The line itself, as one in which every token is replaced by its own text. -/
theorem closes_text : Closes text := by
  have h := l.closes_replace hline fun t ht => l.neutral_token hline ht
  rw [l.replace_layout, l.source] at h
  exact h

theorem exists_cut {t : Token} (ht : t ∈ tokens) :
    ∃ pre post, pre ++ (t.text.toList ++ post) = text ∧ byteSize pre = t.offset ∧ Neutral pre := by
  obtain ⟨before, after, hspans⟩ := List.append_of_mem (l.mem_spans.mpr ht)
  refine ⟨Span.render (·.text.toList) before, Span.render (·.text.toList) after ++ l.comment,
    ?_, ?_, Span.neutral_render ?_ ?_⟩
  · have hsource := l.source
    rw [hspans, Span.render_append, Span.render_token] at hsource
    simpa using hsource
  · have hplaced := l.placed
    rw [hspans] at hplaced
    rw [hplaced.offset_eq, Nat.zero_add]
  · exact fun cs hcs => l.blank cs (hspans ▸ List.mem_append_left _ hcs)
  · intro u hu
    refine l.neutral_token hline (l.mem_spans.mp ?_)
    rw [hspans]
    exact List.mem_append_left _ (Span.mem_tokens.mp hu)

/-- A token ends inside its line. -/
theorem stop_le {t : Token} (ht : t ∈ tokens) : t.stop ≤ byteSize text := by
  obtain ⟨pre, post, htext, hstart, -⟩ := l.exists_cut hline ht
  rw [← htext, byteSize_append, byteSize_append, Token.stop, Token.size]
  omega

theorem neutral_slice {first last : Token} (hfirst : first ∈ tokens) (hlast : last ∈ tokens)
    {part : List Char} (h : slice? text first.offset last.stop = some part) : Neutral part := by
  obtain ⟨pre, post, htext, hstart, hstop⟩ := eq_append_of_slice? h
  obtain ⟨before, after, hcut, hbefore, hneutral⟩ := l.exists_cut hline hfirst
  obtain ⟨before', after', hcut', hbefore', hneutral'⟩ := l.exists_cut hline hlast
  -- both ends of the part are known places: the start of `first` and the end of `last`
  have hpre : pre = before := by
    have hsame : pre ++ (part ++ post) = before ++ (first.text.toList ++ after) := by
      rw [hcut, htext, List.append_assoc]
    exact eq_of_byteSize_eq hsame (hstart.trans hbefore.symm)
  have hend : pre ++ part = before' ++ last.text.toList := by
    have hsame : pre ++ part ++ post = before' ++ last.text.toList ++ after' := by
      rw [List.append_assoc before', hcut', htext]
    refine eq_of_byteSize_eq hsame ?_
    rw [hstop, byteSize_append, hbefore']
    rfl
  have hall : Neutral (pre ++ part) := by
    rw [hend]
    exact hneutral'.append (l.neutral_token hline hlast)
  exact Neutral.of_append (hpre ▸ hneutral) hall

theorem neutral_groupText {group : List Token} (h : group ⊆ tokens) :
    Neutral (Call.groupText text group).toList := by
  unfold Call.groupText
  split
  · next first last hfirst hlast =>
    split
    · next cs hslice =>
      rw [Call.groupStop_eq (l.stop_le hline (h (List.mem_of_getLast? hlast)))] at hslice
      rw [String.toList_ofList]
      exact l.neutral_slice hline (h (List.mem_of_head? hfirst)) (h (List.mem_of_getLast? hlast))
        hslice
    · refine Neutral.join fun s hs => ?_
      obtain ⟨t, ht, rfl⟩ := List.mem_map.mp hs
      exact l.neutral_token hline (h ht)
  · rfl

end LexedLine

end MipsMacro

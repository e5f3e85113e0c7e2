import MipsMacro.Proofs.Layout

/-!
# Splicing

A substitute is put where the text of its token is found. Proved here:

* `Text.exists_cutFirst?_le`: a text is found at its leftmost occurrence;
* `SpliceStrategy.eq_append_of_cut?`: whatever the strategy, it is found where it stands;
* `SpliceStrategy.splice_self`, `SpliceStrategy.mem_of_mem_splice`: so a text in the place of itself
  changes nothing, and any other adds its own characters only;
* `SpliceStrategy.splice_leftmost`: at the leftmost occurrence, a token is replaced in its place if its
  text does not start in front of it.
-/

namespace MipsMacro

open Text

namespace Text

theorem exists_cutFirst?_le {part cs pre post : List Char} (h : cs = pre ++ part ++ post) :
    ∃ pre' post', cutFirst? part cs = some (pre', post') ∧ byteSize pre' ≤ byteSize pre := by
  induction cs generalizing pre with
  | nil =>
    obtain ⟨rfl, rfl, rfl⟩ : pre = [] ∧ part = [] ∧ post = [] := by simpa using h.symm
    exact ⟨[], [], rfl, Nat.le_refl _⟩
  | cons c cs ih =>
    rw [cutFirst?]
    cases hbehind : behind? part (c :: cs) with
    | some post' => exact ⟨[], post', rfl, Nat.zero_le _⟩
    | none =>
      cases pre with
      | nil =>
        have hfound : behind? part (c :: cs) = some post := behind?_eq_some_iff.mpr h
        rw [hfound] at hbehind
        cases hbehind
      | cons d pre =>
        simp only [List.cons_append, List.cons.injEq] at h
        obtain ⟨rfl, h⟩ := h
        obtain ⟨pre', post', hcut, hle⟩ := ih h
        refine ⟨c :: pre', post', ?_, ?_⟩
        · simp [hcut]
        · simp only [byteSize]
          omega

theorem eq_append_of_cutAt? {part cs pre post : List Char} {offset : Nat}
    (h : cutAt? part offset cs = some (pre, post)) : cs = pre ++ part ++ post := by
  simp only [cutAt?, bind, Option.bind_eq_some_iff, pure] at h
  obtain ⟨⟨before, rest⟩, hsplit, behind, hbehind, h⟩ := h
  cases h
  obtain rfl : rest = part ++ post := behind?_eq_some_iff.mp hbehind
  rw [(eq_append_of_splitAt? hsplit).1, List.append_assoc]

end Text

namespace SpliceStrategy

theorem eq_append_of_cut? {strategy : SpliceStrategy} {t : Token} {line pre post : List Char}
    (h : strategy.cut? t line = some (pre, post)) : line = pre ++ t.text.toList ++ post := by
  cases strategy with
  | trackOffsets =>
    rcases Option.or_eq_some_iff.mp h with h | ⟨-, h⟩
    · exact eq_append_of_cutAt? h
    · exact eq_append_of_cutFirst? h
  | firstOccurrence => exact eq_append_of_cutFirst? h

theorem mem_of_mem_splice {strategy : SpliceStrategy} {t : Token} {substitute line : List Char}
    {c : Char} (h : c ∈ strategy.splice t substitute line) : c ∈ substitute ∨ c ∈ line := by
  unfold splice at h
  split at h
  · next pre post hcut =>
    rw [eq_append_of_cut? hcut]
    rcases List.mem_append.mp h with h | h
    · rcases List.mem_append.mp h with h | h
      · exact Or.inr (by simp [h])
      · exact Or.inl h
    · exact Or.inr (by simp [h])
  · exact Or.inr h

theorem splice_self (strategy : SpliceStrategy) (t : Token) (line : List Char) :
    strategy.splice t t.text.toList line = line := by
  unfold splice
  split
  · next pre post hcut => exact (eq_append_of_cut? hcut).symm
  · rfl

end SpliceStrategy

/-! ## Leftmost occurrences -/

/-- The text of the token does not start anywhere in front of it. -/
def Token.Leftmost (t : Token) (text : List Char) : Prop :=
  ∀ pre post, text = pre ++ t.text.toList ++ post → t.offset ≤ byteSize pre

theorem Token.leftmost_iff (t : Token) (text : List Char) :
    t.Leftmost text ↔ ∀ cut ∈ cutFirst? t.text.toList text, t.offset ≤ byteSize cut.1 := by
  constructor
  · rintro h ⟨pre, post⟩ hcut
    exact h pre post (eq_append_of_cutFirst? hcut)
  · intro h pre post htext
    obtain ⟨pre', post', hcut, hle⟩ := exists_cutFirst?_le htext
    exact Nat.le_trans (h (pre', post') hcut) hle

instance (t : Token) (text : List Char) : Decidable (t.Leftmost text) :=
  decidable_of_iff _ (t.leftmost_iff text).symm

/-- What stands behind a token does not matter: its text starts in front of it in all texts that are the
same up to the end of the token, or in none. -/
theorem Token.Leftmost.congr {t : Token} {pre post post' : List Char} (hsize : byteSize pre = t.offset)
    (h : t.Leftmost (pre ++ t.text.toList ++ post)) :
    t.Leftmost (pre ++ t.text.toList ++ post') := by
  intro before after htext
  rcases Nat.lt_or_ge (byteSize before) t.offset with hlt | hle
  · -- an earlier occurrence ends in front of the end of the token
    have hends : byteSize (before ++ t.text.toList) ≤ byteSize (pre ++ t.text.toList) := by
      rw [byteSize_append, byteSize_append]
      omega
    obtain ⟨gap, hpre, -⟩ := append_of_byteSize_le htext.symm hends
    exact h before (gap ++ post) (by rw [hpre, List.append_assoc])
  · exact hle

theorem SpliceStrategy.splice_leftmost (t : Token) (pre substitute post : List Char)
    (hsize : byteSize pre = t.offset) (h : t.Leftmost (pre ++ t.text.toList ++ post)) :
    firstOccurrence.splice t substitute (pre ++ t.text.toList ++ post) =
      pre ++ substitute ++ post := by
  obtain ⟨pre', post', hcut, hle⟩ :=
    exists_cutFirst?_le (rfl : pre ++ t.text.toList ++ post = pre ++ t.text.toList ++ post)
  have hsame := eq_append_of_cutFirst? hcut
  have hge := h pre' post' hsame
  simp only [List.append_assoc] at hsame
  obtain rfl : pre = pre' := eq_of_byteSize_eq hsame (by omega)
  obtain rfl : post = post' := by simpa using hsame
  simp only [splice, cut?, hcut]

-- behind its own text in a literal the token is not found
example : SpliceStrategy.firstOccurrence.splice ⟨.parameter, "%a", 2, 6, 5⟩ ['7'] "\"%a\" %a".toList =
    "\"7\" %a".toList := by decide +kernel

end MipsMacro

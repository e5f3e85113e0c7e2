import MipsMacro.Text.Search

/-!
Positions in text counted in UTF-8 bytes. A cut is only made between two characters: an offset
inside a character, or past the end, gives nothing.
-/

namespace MipsMacro.Text

/-- The length of a text in UTF-8 bytes. -/
def byteSize : List Char → Nat
  | [] => 0
  | c :: cs => c.utf8Size + byteSize cs

/-- The text before and after a byte offset. -/
def splitAt? : Nat → List Char → Option (List Char × List Char)
  | 0, cs => some ([], cs)
  | _ + 1, [] => none
  | n + 1, c :: cs =>
    if c.utf8Size ≤ n + 1 then
      (splitAt? (n + 1 - c.utf8Size) cs).map fun (pre, post) => (c :: pre, post)
    else
      none

/-- The text between two byte offsets. -/
def slice? (cs : List Char) (start stop : Nat) : Option (List Char) :=
  if start ≤ stop then do
    let (_, rest) ← splitAt? start cs
    let (part, _) ← splitAt? (stop - start) rest
    return part
  else
    none

/-- The text before and after `part`, when `part` stands at the byte offset `offset`. -/
def cutAt? (part : List Char) (offset : Nat) (cs : List Char) : Option (List Char × List Char) := do
  let (pre, rest) ← splitAt? offset cs
  let post ← behind? part rest
  return (pre, post)

theorem byteSize_append (as bs : List Char) : byteSize (as ++ bs) = byteSize as + byteSize bs := by
  induction as with
  | nil => simp [byteSize]
  | cons a as ih => simp [byteSize, ih, Nat.add_assoc]

theorem splitAt?_byteSize (pre post : List Char) :
    splitAt? (byteSize pre) (pre ++ post) = some (pre, post) := by
  induction pre with
  | nil => simp [byteSize, splitAt?]
  | cons c pre ih =>
    have hc := c.utf8Size_pos
    obtain ⟨n, hn⟩ : ∃ n, c.utf8Size + byteSize pre = n + 1 := ⟨c.utf8Size + byteSize pre - 1, by omega⟩
    have hle : c.utf8Size ≤ n + 1 := by omega
    have hsub : n + 1 - c.utf8Size = byteSize pre := by omega
    simp [byteSize, hn, splitAt?, hle, hsub, ih]

theorem eq_append_of_splitAt? {n : Nat} {cs pre post : List Char}
    (h : splitAt? n cs = some (pre, post)) : cs = pre ++ post ∧ byteSize pre = n := by
  induction cs generalizing n pre with
  | nil =>
    cases n with
    | zero => simp only [splitAt?, Option.some.injEq, Prod.mk.injEq] at h; simp [← h.1, ← h.2, byteSize]
    | succ n => simp [splitAt?] at h
  | cons c cs ih =>
    cases n with
    | zero => simp only [splitAt?, Option.some.injEq, Prod.mk.injEq] at h; simp [← h.1, ← h.2, byteSize]
    | succ n =>
      simp only [splitAt?] at h
      split at h
      · obtain ⟨⟨pre', post'⟩, hs, he⟩ := Option.map_eq_some_iff.1 h
        simp only [Prod.mk.injEq] at he
        obtain ⟨rfl, rfl⟩ := he
        obtain ⟨h₁, h₂⟩ := ih hs
        exact ⟨by simp [h₁], by simp [byteSize, h₂]; omega⟩
      · simp at h

end MipsMacro.Text

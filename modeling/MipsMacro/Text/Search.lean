/-!
Looking for one text inside another.
-/

namespace MipsMacro.Text

/-- What follows `part` in a text that begins with it. -/
def behind? : List Char → List Char → Option (List Char)
  | [], cs => some cs
  | _ :: _, [] => none
  | p :: part, c :: cs => if p = c then behind? part cs else none

/-- The text before and after the leftmost occurrence of `part`. -/
def cutFirst? (part : List Char) : List Char → Option (List Char × List Char)
  | [] => (behind? part []).map fun post => ([], post)
  | c :: cs =>
    match behind? part (c :: cs) with
    | some post => some ([], post)
    | none => (cutFirst? part cs).map fun (pre, post) => (c :: pre, post)

theorem behind?_eq_some_iff {part cs post : List Char} :
    behind? part cs = some post ↔ cs = part ++ post := by
  induction part generalizing cs with
  | nil => simp [behind?, eq_comm]
  | cons p part ih =>
    cases cs with
    | nil => simp [behind?]
    | cons c cs =>
      simp only [behind?, List.cons_append, List.cons.injEq]
      split
      · next h => simp [ih, h]
      · next h => simp [Ne.symm h]

theorem eq_append_of_cutFirst? {part cs pre post : List Char}
    (h : cutFirst? part cs = some (pre, post)) : cs = pre ++ part ++ post := by
  induction cs generalizing pre with
  | nil =>
    simp only [cutFirst?, Option.map_eq_some_iff, Prod.mk.injEq] at h
    obtain ⟨_, hb, rfl, rfl⟩ := h
    simpa using behind?_eq_some_iff.1 hb
  | cons c cs ih =>
    simp only [cutFirst?] at h
    split at h
    · next hb =>
      simp only [Option.some.injEq, Prod.mk.injEq] at h
      obtain ⟨rfl, rfl⟩ := h
      simpa using behind?_eq_some_iff.1 hb
    · simp only [Option.map_eq_some_iff, Prod.mk.injEq] at h
      obtain ⟨⟨pre', post'⟩, hc, rfl, rfl⟩ := h
      simp [ih hc]

end MipsMacro.Text

import MipsMacro.Json.Lexeme

/-!
Reading JSON text. The text is cut into lexemes, and the lexemes are read with a stack of the arrays
and objects that are still open, so nesting may be of any depth.
-/

namespace MipsMacro.Json

theorem stringBody_length {cs body rest : List Char} (h : stringBody cs = some (body, rest)) :
    rest.length ≤ cs.length := by
  fun_induction stringBody cs generalizing body rest with
  | case1 => simp at h
  | case2 => simp at h; simp [← h.2]
  | case3 => simp at h
  | case4 _ _ _ _ _ _ ih =>
    simp [Option.bind_eq_some_iff] at h
    obtain ⟨_, _, hb, _⟩ := h
    have := ih hb
    simp; omega
  | case5 => simp at h
  | case6 _ _ _ _ ih =>
    simp [Option.bind_eq_some_iff] at h
    obtain ⟨_, _, hb, _⟩ := h
    have := ih hb
    simp; omega
  | case7 => simp at h
  | case8 _ _ _ _ _ ih =>
    simp [Option.bind_eq_some_iff] at h
    obtain ⟨_, hb, _⟩ := h
    have := ih hb
    simp; omega

theorem digits_length {cs taken rest : List Char} (h : digits cs = some (taken, rest)) :
    rest.length < cs.length := by
  have happ := congrArg List.length (List.takeWhile_append_dropWhile (p := Char.isDigit) (l := cs))
  simp only [digits] at h
  split at h
  · simp at h
  · next hne =>
    simp only [Option.some.injEq, Prod.mk.injEq] at h
    have : taken.length ≠ 0 := by simpa [← h.1] using hne
    simp only [List.length_append, h.1, h.2] at happ
    omega

theorem integerPart_length {cs taken rest : List Char} (h : integerPart cs = some (taken, rest)) :
    rest.length < cs.length := by
  unfold integerPart at h
  split at h
  · simp at h
  · split at h
    · simp at h; simp [← h.2]
    · exact digits_length h

theorem fractionPart_length {cs taken rest : List Char} (h : fractionPart cs = some (taken, rest)) :
    rest.length ≤ cs.length := by
  unfold fractionPart at h
  split at h
  · simp at h; simp [← h.2]
  · split at h
    · simp [Option.bind_eq_some_iff] at h
      obtain ⟨_, hd, _⟩ := h
      have := digits_length hd
      simp; omega
    · simp at h; simp [← h.2]

theorem exponentPart_length {cs taken rest : List Char} (h : exponentPart cs = some (taken, rest)) :
    rest.length ≤ cs.length := by
  unfold exponentPart at h
  split at h
  · simp at h; simp [← h.2]
  · split at h
    · split at h
      · simp at h
      · split at h <;>
        · simp [Option.bind_eq_some_iff] at h
          obtain ⟨_, hd, _⟩ := h
          have := digits_length hd
          simp at this ⊢; omega
    · simp at h; simp [← h.2]

theorem unsignedNumber_length {cs body rest : List Char}
    (h : unsignedNumber cs = some (body, rest)) : rest.length < cs.length := by
  simp [unsignedNumber, Option.bind_eq_some_iff] at h
  obtain ⟨_, _, hi, _, _, hf, _, he, _⟩ := h
  have := integerPart_length hi
  have := fractionPart_length hf
  have := exponentPart_length he
  omega

theorem literalName_length {name cs rest : List Char} {l l' : Lexeme}
    (h : literalName name l cs = some (l', rest)) : rest.length ≤ cs.length := by
  simp [literalName] at h
  simp [Text.behind?_eq_some_iff.1 h.1]

theorem signedNumber_length {c : Char} {cs rest : List Char} {l : Lexeme}
    (h : signedNumber c cs = some (l, rest)) : rest.length ≤ cs.length := by
  unfold signedNumber at h
  split at h
  · simp at h
    obtain ⟨_, hb, _⟩ := h
    have := unsignedNumber_length hb
    omega
  · simp at h
    obtain ⟨_, hb, _⟩ := h
    have := unsignedNumber_length hb
    simp at this; omega

theorem lexeme_length {c : Char} {cs rest : List Char} {l : Lexeme}
    (h : lexeme c cs = some (l, rest)) : rest.length ≤ cs.length := by
  unfold lexeme at h
  split at h
  · simp at h; simp [← h.2]
  split at h
  · simp at h
    obtain ⟨_, hb, _⟩ := h
    exact stringBody_length hb
  split at h
  · exact literalName_length h
  split at h
  · exact literalName_length h
  split at h
  · exact literalName_length h
  · exact signedNumber_length h

/-- The lexemes of a text, if it has no others. -/
def lexemes? : List Char → Option (List Lexeme)
  | [] => some []
  | c :: cs =>
    if isSpace c then
      lexemes? cs
    else
      match _h : lexeme c cs with
      | some (l, rest) => (lexemes? rest).map (l :: ·)
      | none => none
termination_by cs => cs.length
decreasing_by
  · simp
  · have := lexeme_length _h
    simp
    omega

/-- An array or object of which some lexemes are still to come. -/
inductive Frame where
  /-- The items so far, the latest first. -/
  | array (items : List Json)
  /-- The members so far, the latest first, and the key of the next. -/
  | object (members : List (String × Json)) (key : String)

mutual

/-- Reads a value inside the open frames and all that follows it. -/
def value (frames : List Frame) : List Lexeme → Option Json
  | .null :: ls => next frames .null ls
  | .bool b :: ls => next frames (.bool b) ls
  | .number n :: ls => next frames (.number n) ls
  | .string s :: ls => next frames (.string s) ls
  | .openBracket :: .closeBracket :: ls => next frames (.array []) ls
  | .openBracket :: ls => value (.array [] :: frames) ls
  | .openBrace :: .closeBrace :: ls => next frames (.object []) ls
  | .openBrace :: .string key :: .colon :: ls => value (.object [] key :: frames) ls
  | _ => none

/-- Goes on behind a value inside the open frames. -/
def next : List Frame → Json → List Lexeme → Option Json
  | [], v, [] => some v
  | .array items :: frames, v, .comma :: ls => value (.array (v :: items) :: frames) ls
  | .array items :: frames, v, .closeBracket :: ls => next frames (.array (v :: items).reverse) ls
  | .object members key :: frames, v, .comma :: .string key' :: .colon :: ls =>
    value (.object ((key, v) :: members) key' :: frames) ls
  | .object members key :: frames, v, .closeBrace :: ls =>
    next frames (.object ((key, v) :: members).reverse) ls
  | _, _, _ => none

end

/-- The value that a text writes. -/
def parse? (text : String) : Option Json := lexemes? text.toList >>= value []

end MipsMacro.Json

import Mathlib.Data.List.Forall2
import MipsMacro.Json.Lexeme

/-!
# Texts inside JSON strings

A text may be spelled inside a string in many ways: a character stands for itself, or a letter behind a
backslash, or its UTF-16 units in hexadecimal digits. Proved here, for every spelling:

* `Json.unescape_of_spells`: reading gives the text that is spelled;
* `Json.spells_escape`: what is written for a text spells it;
* `Json.stringBody_append`: the inside of a string ends at the first quote that is not escaped.
-/

namespace MipsMacro.Json

/-! ## Spellings -/

/-- A hexadecimal digit, in either case, and its value. -/
def IsHexDigit (c : Char) (n : Nat) : Prop :=
  n < 16 ∧ (c = Nat.digitChar n ∨ c = (Nat.digitChar n).toUpper)

/-- The escape of a UTF-16 unit in four hexadecimal digits. -/
inductive UnitEscape : Nat → List Char → Prop where
  | digits {a b c d : Char} {x y z w : Nat} (ha : IsHexDigit a x) (hb : IsHexDigit b y)
      (hc : IsHexDigit c z) (hd : IsHexDigit d w) :
      UnitEscape (((x * 16 + y) * 16 + z) * 16 + w) ['\x5c', 'u', a, b, c, d]

/-- The UTF-16 units of a character: one in the basic plane, a pair of surrogates beyond it. -/
def units (c : Char) : List Nat :=
  if c.toNat < 0x10000 then [c.toNat]
  else [0xd800 + (c.toNat - 0x10000) / 0x400, 0xdc00 + (c.toNat - 0x10000) % 0x400]

/-- The letters behind a backslash and the characters that they spell. -/
def shortEscapes : List (Char × Char) :=
  [('\x22', '\x22'), ('\x5c', '\x5c'), ('/', '/'), ('b', '\x08'), ('f', '\x0c'), ('n', '\n'),
   ('r', '\r'), ('t', '\t')]

/-- The inside of a string spells a text. -/
inductive Spells : List Char → List Char → Prop where
  | nil : Spells [] []
  | plain {c : Char} {body text : List Char} (hquote : c ≠ '\x22') (hbackslash : c ≠ '\x5c')
      (hcontrol : 0x20 ≤ c.toNat) (h : Spells body text) : Spells (c :: body) (c :: text)
  | short {letter c : Char} {body text : List Char} (hletter : (letter, c) ∈ shortEscapes)
      (h : Spells body text) : Spells ('\x5c' :: letter :: body) (c :: text)
  | units {c : Char} {escapes : List (List Char)} {body text : List Char}
      (hunits : List.Forall₂ UnitEscape (units c) escapes) (h : Spells body text) :
      Spells (escapes.flatten ++ body) (c :: text)

/-- The inside of a string is well formed. It need not spell a text, since a surrogate may stand alone. -/
inductive IsBody : List Char → Prop where
  | nil : IsBody []
  | plain {c : Char} {body : List Char} (hquote : c ≠ '\x22') (hbackslash : c ≠ '\x5c')
      (hcontrol : 0x20 ≤ c.toNat) (h : IsBody body) : IsBody (c :: body)
  | short {letter c : Char} {body : List Char} (hletter : (letter, c) ∈ shortEscapes)
      (h : IsBody body) : IsBody ('\x5c' :: letter :: body)
  | unit {n : Nat} {digits body : List Char} (hunit : UnitEscape n digits) (h : IsBody body) :
      IsBody (digits ++ body)

theorem IsBody.units {ns : List Nat} {escapes : List (List Char)}
    (hunits : List.Forall₂ UnitEscape ns escapes) {body : List Char} (h : IsBody body) :
    IsBody (escapes.flatten ++ body) := by
  induction hunits with
  | nil => exact h
  | cons hunit _ ih =>
    rw [List.flatten_cons, List.append_assoc]
    exact .unit hunit ih

theorem Spells.isBody {body text : List Char} (h : Spells body text) : IsBody body := by
  induction h with
  | nil => exact .nil
  | plain hquote hbackslash hcontrol _ ih => exact .plain hquote hbackslash hcontrol ih
  | short hletter _ ih => exact .short hletter ih
  | units hunits _ ih => exact ih.units hunits

/-! ## Reading -/

theorem hexValue?_of_isHexDigit {c : Char} {n : Nat} (h : IsHexDigit c n) : hexValue? c = some n := by
  have hall : ∀ n < 16, hexValue? (Nat.digitChar n) = some n ∧
      hexValue? (Nat.digitChar n).toUpper = some n := by decide
  obtain ⟨hn, rfl | rfl⟩ := h
  · exact (hall n hn).1
  · exact (hall n hn).2

/-- An escape of a unit is read as its value. -/
theorem UnitEscape.exists_hex4? {n : Nat} {digits : List Char} (h : UnitEscape n digits) :
    ∃ a b c d, digits = ['\x5c', 'u', a, b, c, d] ∧ hex4? a b c d = some n := by
  obtain ⟨ha, hb, hc, hd⟩ := h
  refine ⟨_, _, _, _, rfl, ?_⟩
  simp [hex4?, hexValue?_of_isHexDigit ha, hexValue?_of_isHexDigit hb, hexValue?_of_isHexDigit hc,
    hexValue?_of_isHexDigit hd]

theorem shortEscape?_of_mem {letter c : Char} (h : (letter, c) ∈ shortEscapes) :
    letter ≠ 'u' ∧ shortEscape? letter = some c := by
  have hall : ∀ p ∈ shortEscapes, p.1 ≠ 'u' ∧ shortEscape? p.1 = some p.2 := by decide
  exact hall _ h

theorem toNat_valid (c : Char) : c.toNat < 0xd800 ∨ 0xdfff < c.toNat ∧ c.toNat < 0x110000 := c.valid

theorem isHighSurrogate_iff {n : Nat} : isHighSurrogate n = true ↔ 0xd800 ≤ n ∧ n ≤ 0xdbff := by
  rw [isHighSurrogate, Bool.and_eq_true, Nat.ble_eq, Nat.ble_eq]

theorem isLowSurrogate_iff {n : Nat} : isLowSurrogate n = true ↔ 0xdc00 ≤ n ∧ n ≤ 0xdfff := by
  rw [isLowSurrogate, Bool.and_eq_true, Nat.ble_eq, Nat.ble_eq]

theorem unescape_plain {c : Char} (hbackslash : c ≠ '\x5c') (cs : List Char) :
    unescape (c :: cs) = (unescape cs).map (c :: ·) := by
  rw [unescape.eq_def]
  simp only [if_neg hbackslash]
  cases unescape cs <;> rfl

theorem unescape_short {letter c : Char} (h : (letter, c) ∈ shortEscapes) (cs : List Char) :
    unescape ('\x5c' :: letter :: cs) = (unescape cs).map (c :: ·) := by
  obtain ⟨hu, hshort⟩ := shortEscape?_of_mem h
  rw [unescape.eq_def]
  simp only [if_neg hu, hshort]
  cases unescape cs <;> rfl

/-- A unit that is no surrogate spells a character. -/
theorem unescape_unit {n : Nat} {digits : List Char} (h : UnitEscape n digits)
    (hhigh : isHighSurrogate n = false) (hlow : isLowSurrogate n = false) (cs : List Char) :
    unescape (digits ++ cs) = (unescape cs).map (Char.ofNat n :: ·) := by
  obtain ⟨_, _, _, _, rfl, hvalue⟩ := h.exists_hex4?
  simp only [List.cons_append, List.nil_append]
  rw [unescape.eq_def]
  simp only [if_true, hvalue, Option.bind_eq_bind, Option.bind_some, hhigh, hlow, Bool.false_eq_true,
    if_false]
  cases unescape cs <;> rfl

/-- Two surrogates spell a character. -/
theorem unescape_pair {high low : Nat} {digits digits' : List Char} (h : UnitEscape high digits)
    (h' : UnitEscape low digits') (hhigh : isHighSurrogate high = true)
    (hlow : isLowSurrogate low = true) (cs : List Char) :
    unescape (digits ++ (digits' ++ cs)) = (unescape cs).map (surrogatePair high low :: ·) := by
  obtain ⟨_, _, _, _, rfl, hvalue⟩ := h.exists_hex4?
  obtain ⟨_, _, _, _, rfl, hvalue'⟩ := h'.exists_hex4?
  simp only [List.cons_append, List.nil_append]
  rw [unescape.eq_def]
  simp only [if_true, hvalue, Option.bind_eq_bind, Option.bind_some, hhigh, and_self, hvalue', hlow]
  cases unescape cs <;> rfl

/-- The units of a character spell it. -/
theorem unescape_units {c : Char} {escapes : List (List Char)}
    (h : List.Forall₂ UnitEscape (units c) escapes) (cs : List Char) :
    unescape (escapes.flatten ++ cs) = (unescape cs).map (c :: ·) := by
  have hvalid := toNat_valid c
  unfold units at h
  split at h
  · next hbasic =>
    obtain ⟨digits, _, hunit, hnone, rfl⟩ := List.forall₂_cons_left_iff.mp h
    obtain rfl := List.forall₂_nil_left_iff.mp hnone
    have hhigh : isHighSurrogate c.toNat = false := by
      rw [Bool.eq_false_iff, Ne, isHighSurrogate_iff]
      omega
    have hlow : isLowSurrogate c.toNat = false := by
      rw [Bool.eq_false_iff, Ne, isLowSurrogate_iff]
      omega
    rw [List.flatten_singleton, unescape_unit hunit hhigh hlow, Char.ofNat_toNat]
  · next hbeyond =>
    obtain ⟨digits, _, hunit, hrest, rfl⟩ := List.forall₂_cons_left_iff.mp h
    obtain ⟨digits', _, hunit', hnone, rfl⟩ := List.forall₂_cons_left_iff.mp hrest
    obtain rfl := List.forall₂_nil_left_iff.mp hnone
    have hhigh := isHighSurrogate_iff.mpr
      (show 0xd800 ≤ 0xd800 + (c.toNat - 0x10000) / 0x400 ∧
        0xd800 + (c.toNat - 0x10000) / 0x400 ≤ 0xdbff by omega)
    have hlow := isLowSurrogate_iff.mpr
      (show 0xdc00 ≤ 0xdc00 + (c.toNat - 0x10000) % 0x400 ∧
        0xdc00 + (c.toNat - 0x10000) % 0x400 ≤ 0xdfff by omega)
    have hsum : 0x10000 + (0xd800 + (c.toNat - 0x10000) / 0x400 - 0xd800) * 0x400 +
        (0xdc00 + (c.toNat - 0x10000) % 0x400 - 0xdc00) = c.toNat := by omega
    rw [List.flatten_cons, List.flatten_singleton, List.append_assoc,
      unescape_pair hunit hunit' hhigh hlow, surrogatePair, hsum, Char.ofNat_toNat]

theorem unescape_of_spells {body text : List Char} (h : Spells body text) :
    unescape body = some text := by
  induction h with
  | nil => rfl
  | plain _ hbackslash _ _ ih => rw [unescape_plain hbackslash, ih, Option.map_some]
  | short hletter _ ih => rw [unescape_short hletter, ih, Option.map_some]
  | units hunits _ ih => rw [unescape_units hunits, ih, Option.map_some]

/-- A string is read up to its closing quote. -/
theorem stringBody_append {body : List Char} (h : IsBody body) (rest : List Char) :
    stringBody (body ++ '\x22' :: rest) = some (body, rest) := by
  induction h with
  | nil =>
    rw [List.nil_append, stringBody.eq_def]
    rfl
  | plain hquote hbackslash hcontrol _ ih =>
    rw [List.cons_append, stringBody.eq_def]
    simp only [if_neg hquote, if_neg hbackslash, if_neg (Nat.not_lt.mpr hcontrol), ih]
    rfl
  | short hletter _ ih =>
    obtain ⟨hu, hshort⟩ := shortEscape?_of_mem hletter
    rw [List.cons_append, List.cons_append, stringBody.eq_def]
    simp only [if_neg hu, hshort, ih]
    rfl
  | unit hunit _ ih =>
    obtain ⟨_, _, _, _, rfl, hvalue⟩ := hunit.exists_hex4?
    rw [List.append_assoc]
    simp only [List.cons_append, List.nil_append]
    rw [stringBody.eq_def]
    simp only [if_true, hvalue, ih]
    rfl

/-! ## Writing -/

/-- Two digits are enough for a control character. -/
theorem unitEscape_control {n : Nat} (h : n < 0x20) :
    UnitEscape n ['\x5c', 'u', '0', '0', Nat.digitChar (n / 16), Nat.digitChar (n % 16)] := by
  have hzero : IsHexDigit '0' 0 := ⟨by decide, Or.inl rfl⟩
  have hdigits := UnitEscape.digits hzero hzero ⟨show n / 16 < 16 by omega, Or.inl rfl⟩
    ⟨show n % 16 < 16 by omega, Or.inl rfl⟩
  rwa [show ((0 * 16 + 0) * 16 + n / 16) * 16 + n % 16 = n by omega] at hdigits

/-- What is written for a character spells it in front of any other spelling. -/
theorem Spells.escapeChar {body text : List Char} (h : Spells body text) (c : Char) :
    Spells (escapeChar c ++ body) (c :: text) := by
  unfold Json.escapeChar
  -- the escapes with a letter of their own come first
  iterate 7
    split
    · next hc =>
      subst hc
      exact .short (by decide) h
  next hquote hbackslash _ _ _ _ _ =>
  split
  · next hcontrol =>
    have hunits : Json.units c = [c.toNat] := if_pos (by omega)
    have hescape := List.Forall₂.cons (unitEscape_control hcontrol) List.Forall₂.nil
    rw [← hunits] at hescape
    simpa using h.units hescape
  · next hcontrol => exact .plain hquote hbackslash (Nat.le_of_not_lt hcontrol) h

theorem spells_escape (cs : List Char) : Spells (escape cs) cs := by
  induction cs with
  | nil => exact .nil
  | cons c cs ih =>
    rw [escape, List.flatMap_cons]
    exact ih.escapeChar c

end MipsMacro.Json

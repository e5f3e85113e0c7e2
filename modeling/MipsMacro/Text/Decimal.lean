/-!
Natural numbers in decimal notation.
-/

namespace MipsMacro.Text

/-- The decimal digits of a number, without leading zeros. -/
def decimal (n : Nat) : String := String.ofList (Nat.toDigits 10 n)

/-- The number that a non-empty run of ASCII digits writes, leading zeros allowed. -/
def ofDecimal? (cs : List Char) : Option Nat :=
  if cs ≠ [] ∧ cs.all Char.isDigit then
    some (cs.foldl (fun n c => 10 * n + (c.toNat - '0'.toNat)) 0)
  else
    none

end MipsMacro.Text

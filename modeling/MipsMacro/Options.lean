/-!
The settings of an expansion.
-/

namespace MipsMacro

/-- Where a substitute is put into a line. -/
inductive SpliceStrategy where
  /-- At the offset of its token, or at the leftmost occurrence if the token is not there. -/
  | trackOffsets
  /-- At the leftmost occurrence of its token. -/
  | firstOccurrence
  deriving DecidableEq

structure Options where
  /-- Accept parameters in SPIM style, `$name`, beside `%name`. -/
  acceptSpimParameters : Bool := true
  splice : SpliceStrategy := .trackOffsets
  /-- Stands between a local label and the number of the invocation. -/
  labelSuffix : String := "_M"
  /-- The number of the first invocation. -/
  firstInvocation : UInt64 := 0
  deriving DecidableEq

end MipsMacro

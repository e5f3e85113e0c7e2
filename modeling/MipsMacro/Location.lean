import MipsMacro.Text.Decimal

/-!
Places in source files. Lines and columns count from one in 32-bit words, so a larger number keeps
its low 32 bits.
-/

namespace MipsMacro

structure Location where
  file : String
  line : UInt32
  column : UInt32
  deriving DecidableEq

namespace Location

def ofNat (file : String) (line column : Nat) : Location :=
  ⟨file, line.toUInt32, column.toUInt32⟩

/-- The first column of a line. -/
def lineStart (file : String) (line : Nat) : Location := ofNat file line 1

/-- A place is written `file:line:column`. -/
def render (l : Location) : String :=
  l.file ++ ":" ++ Text.decimal l.line.toNat ++ ":" ++ Text.decimal l.column.toNat

end Location

end MipsMacro

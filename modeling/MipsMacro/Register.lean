import MipsMacro.Text.Decimal
import MipsMacro.Text.Search

/-!
Register names. The general registers and those of two coprocessors share the dollar sign with
macro parameters, so a table of names decides which is which.
-/

namespace MipsMacro

inductive RegisterFile where
  | general
  | coprocessor0
  | coprocessor1
  deriving DecidableEq

def RegisterFile.all : List RegisterFile := [general, coprocessor0, coprocessor1]

/-- The number that a name has in each register file, if it has one. -/
structure RegisterTable where
  number : RegisterFile → String → Option Nat

namespace RegisterTable

/-- A register is a name with a number in some file. -/
def isRegister (t : RegisterTable) (name : String) : Bool :=
  RegisterFile.all.any fun file => (t.number file name).isSome

/-- No name is a register. -/
def empty : RegisterTable := ⟨fun _ _ => none⟩

/-- Looks a name up in rows of which the first that fits decides. -/
def ofRows (rows : List (RegisterFile × String × Nat)) : RegisterTable :=
  ⟨fun file name => (rows.find? fun row => row.1 == file && row.2.1 == name).map (·.2.2)⟩

end RegisterTable

namespace Mips

/-- The names of the general registers, each at the position that is its number. -/
def generalNames : List String :=
  ["$zero", "$at", "$v0", "$v1", "$a0", "$a1", "$a2", "$a3",
   "$t0", "$t1", "$t2", "$t3", "$t4", "$t5", "$t6", "$t7",
   "$s0", "$s1", "$s2", "$s3", "$s4", "$s5", "$s6", "$s7",
   "$t8", "$t9", "$k0", "$k1", "$gp", "$sp", "$fp", "$ra"]

/-- The registers of coprocessor 0 that exist: bad address, status, cause and return address. -/
def coprocessor0Numbers : List Nat := [8, 12, 13, 14]

/-- A number in decimal notation that a 32-bit word holds. -/
def word? (digits : List Char) : Option Nat := (Text.ofDecimal? digits).filter (· < UInt32.size)

/-- A register number in decimal notation after a sigil. -/
def index? (sigil : List Char) (name : String) : Option Nat := do
  let digits ← Text.behind? sigil name.toList
  (word? digits).filter (· < 32)

def number : RegisterFile → String → Option Nat
  | .general, name => (generalNames.findIdx? (· == name)).or (index? ['$'] name)
  | .coprocessor0, name => (index? ['$'] name).filter (coprocessor0Numbers.contains ·)
  | .coprocessor1, name => index? ['$', 'f'] name

/-- The register files of a MIPS32 processor. -/
def registers : RegisterTable := ⟨number⟩

end Mips

end MipsMacro

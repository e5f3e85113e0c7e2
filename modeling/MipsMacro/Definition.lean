import MipsMacro.Definition.LineRange
import MipsMacro.Definition.LocalLabels
import MipsMacro.Program

/-!
Macro definitions. A draft grows while its block is read; finishing it sorts its labels. A definition
keeps the program that holds its body, and is called by its name and its number of parameters.
-/

namespace MipsMacro

structure Signature where
  name : String
  arity : Nat
  deriving DecidableEq

def Signature.render (s : Signature) : String := s.name ++ "/" ++ Text.decimal s.arity

/-- A definition whose block is still being read. -/
structure Draft where
  name : String
  program : Program
  parameters : List String := []
  labels : List String := []
  range : LineRange := {}

structure Definition where
  name : String
  program : Program
  parameters : List String
  locals : LocalLabels
  range : LineRange

namespace Draft

def addParameters (d : Draft) (names : List String) : Draft :=
  { d with parameters := d.parameters ++ names }

def addLabels (d : Draft) (labels : List String) : Draft :=
  { d with labels := d.labels ++ labels }

/-- Sets where the block begins, here and in its own file. -/
def beginAt (d : Draft) (line fileLine : Nat) : Draft :=
  { d with range := { d.range with first := line, fileFirst := fileLine } }

/-- Sets where the block ends, here and in its own file. -/
def endAt (d : Draft) (line fileLine : Nat) : Draft :=
  { d with range := { d.range with last := line, fileLast := fileLine } }

def finish (d : Draft) : Definition :=
  ⟨d.name, d.program, d.parameters, .ofList d.labels, d.range⟩

end Draft

namespace Definition

def arity (d : Definition) : Nat := d.parameters.length

def signature (d : Definition) : Signature := ⟨d.name, d.arity⟩

/-- Whether a call by this name with this many arguments fits. -/
def fits (d : Definition) (name : String) (arity : Nat) : Bool :=
  d.name == name && d.arity == arity

/-- The position of a parameter; of two with the same name the first counts. -/
def parameterIndex? (d : Definition) (name : String) : Option Nat :=
  d.parameters.findIdx? (· == name)

end Definition

end MipsMacro

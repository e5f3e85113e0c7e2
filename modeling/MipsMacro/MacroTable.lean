import MipsMacro.Definition

/-!
The macros that can be called, at most one for each signature.
-/

namespace MipsMacro

structure MacroTable where
  definitions : List Definition := []

namespace MacroTable

/-- Puts a definition in the place of the one with its signature, or behind all others. -/
def put (d : Definition) : List Definition → Option Definition × List Definition
  | [] => (none, [d])
  | e :: es =>
    if e.signature = d.signature then
      (some e, d :: es)
    else
      let (old, rest) := put d es
      (old, e :: rest)

/-- Adds a definition; the one that it replaces, if any, comes first. -/
def commit (t : MacroTable) (d : Definition) : Option Definition × MacroTable :=
  let (old, definitions) := put d t.definitions
  (old, ⟨definitions⟩)

def lookup (t : MacroTable) (name : String) (arity : Nat) : Option Definition :=
  t.definitions.find? (·.fits name arity)

/-- Whether some macro has this name, with any number of parameters. -/
def containsName (t : MacroTable) (name : String) : Bool :=
  t.definitions.any (·.name == name)

/-- The numbers of parameters that macros of this name have, ascending. -/
def arities (t : MacroTable) (name : String) : List Nat :=
  sortBy Nat.ble ((t.definitions.filter (·.name == name)).map Definition.arity)

def size (t : MacroTable) : Nat := t.definitions.length

/-- The definitions ordered by name, those of one name by their number of parameters. -/
def toList (t : MacroTable) : List Definition :=
  let precedes (d e : Definition) : Bool :=
    match Text.order d.name.toList e.name.toList with
    | .lt => true
    | .eq => Nat.ble d.arity e.arity
    | .gt => false
  sortBy precedes t.definitions

end MacroTable

end MipsMacro

import MipsMacro.Definition

/-!
A definition on one line, for a reader who looks into a macro table. Texts stand in double quotes,
and characters that would break the line or the quotes are escaped.
-/

namespace MipsMacro

namespace Describe

/-- An ASCII character inside quotes; others stand for themselves. -/
def escape (c : Char) : List Char :=
  if c = '\x22' || c = '\x5c' then ['\x5c', c]
  else if c = '\t' then ['\x5c', 't']
  else if c = '\n' then ['\x5c', 'n']
  else if c = '\r' then ['\x5c', 'r']
  else if c.toNat = 0 then ['\x5c', '0']
  else if c.toNat < 0x20 || c.toNat = 0x7f then
    ['\x5c', 'u', '\x7b'] ++ Nat.toDigits 16 c.toNat ++ ['\x7d']
  else [c]

def quoted (s : String) : String := "\"" ++ String.ofList (s.toList.flatMap escape) ++ "\""

def list (items : List String) : String := "[" ++ String.intercalate ", " items ++ "]"

/-- A type's name and its fields. -/
def record (name : String) (fields : List (String × String)) : String :=
  name ++ " \x7b " ++ String.intercalate ", " (fields.map fun (field, value) => field ++ ": " ++ value) ++
    " \x7d"

end Describe

open Describe

def LineRange.describe (r : LineRange) : String :=
  record "BodyRange"
    [("from_line", Text.decimal r.first), ("to_line", Text.decimal r.last),
     ("original_from_line", Text.decimal r.fileFirst),
     ("original_to_line", Text.decimal r.fileLast)]

def Definition.describe (d : Definition) : String :=
  record "MacroDefinition"
    [("name", quoted d.name), ("program", quoted d.program.name),
     ("parameters", list (d.parameters.map quoted)),
     ("locals", "LocalLabels(" ++ list (d.locals.toList.map quoted) ++ ")"),
     ("range", d.range.describe)]

end MipsMacro

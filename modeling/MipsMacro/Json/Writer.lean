import MipsMacro.Json.Basic
import MipsMacro.Json.Escape
import MipsMacro.Text.Decimal

/-!
Writing JSON text over several lines: each item and member on a line of its own, two blanks deeper
than what holds it. An empty array or object stays on its line.
-/

namespace MipsMacro.Json

/-- The string value that stands for a text. -/
def ofText (s : String) : Json := .string (String.ofList (escape s.toList))

def ofNat (n : Nat) : Json := .number (Text.decimal n)

def quote (spelling : String) : String := "\"" ++ spelling ++ "\""

/-- A new line, indented for the given depth. -/
def newline (depth : Nat) : String := String.ofList ('\n' :: List.replicate (2 * depth) ' ')

mutual

/-- A value whose lines, after the first, are indented for the given depth. -/
def pretty (depth : Nat) : Json → String
  | .null => "null"
  | .bool true => "true"
  | .bool false => "false"
  | .number spelling => spelling
  | .string spelling => quote spelling
  | .array [] => "[]"
  | .array (v :: rest) =>
    "[" ++ newline (depth + 1) ++ pretty (depth + 1) v ++ prettyItems (depth + 1) rest ++
      newline depth ++ "]"
  | .object [] => "\x7b\x7d"
  | .object ((key, v) :: rest) =>
    "\x7b" ++ newline (depth + 1) ++ quote key ++ ": " ++ pretty (depth + 1) v ++
      prettyMembers (depth + 1) rest ++ newline depth ++ "\x7d"

/-- Items after the first. -/
def prettyItems (depth : Nat) : List Json → String
  | [] => ""
  | v :: rest => "," ++ newline depth ++ pretty depth v ++ prettyItems depth rest

/-- Members after the first. -/
def prettyMembers (depth : Nat) : List (String × Json) → String
  | [] => ""
  | (key, v) :: rest =>
    "," ++ newline depth ++ quote key ++ ": " ++ pretty depth v ++ prettyMembers depth rest

end

/-- The text of a value, without a line end behind it. -/
def render (v : Json) : String := pretty 0 v

end MipsMacro.Json

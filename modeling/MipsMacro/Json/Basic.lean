/-!
JSON values as they are written. Numbers and the insides of strings keep their spelling, and objects
keep every member in order, so that a reader decides for itself what it accepts.
-/

namespace MipsMacro

inductive Json where
  | null
  | bool (value : Bool)
  /-- A number in its own spelling. -/
  | number (spelling : String)
  /-- What stands between the quotes of a string, with its escapes. -/
  | string (spelling : String)
  | array (items : List Json)
  /-- Members with their keys as written. -/
  | object (members : List (String × Json))

end MipsMacro

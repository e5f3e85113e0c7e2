import MipsMacro.Location

/-!
Failures that end an operation, with the sentence that each is reported by.
-/

namespace MipsMacro

inductive Error where
  /-- A line that cannot be cut into tokens. -/
  | lexical (location : Location) (message : String)
  /-- A macro block that is not well formed. -/
  | malformed (location : Location) (message : String)
  /-- A line that is asked of a definition which does not hold it. -/
  | lineOutOfRange (name : String) (line first last : Nat)
  | invalidConfig (message : String)
  | io (message : String)
  deriving DecidableEq

def Error.message : Error → String
  | lexical location message => "Lexical error at " ++ location.render ++ ": " ++ message
  | malformed location message => "Macro syntax error at " ++ location.render ++ ": " ++ message
  | lineOutOfRange name line first last =>
    "Line " ++ Text.decimal line ++ " is outside the body of macro '" ++ name ++ "' (lines " ++
      Text.decimal first ++ "..=" ++ Text.decimal last ++ ")"
  | invalidConfig message => "Invalid configuration: " ++ message
  | io message => "IO error: " ++ message

end MipsMacro

/-!
The lines of a text. A line ends at a line feed, a carriage return directly before it belongs to the
line end, and the end of the text ends its last line only if that line holds a character.
-/

namespace MipsMacro.Text

/-- The lines of a text, without their ends. -/
def lines : List Char → List (List Char)
  | [] => []
  | '\r' :: '\n' :: cs => [] :: lines cs
  | '\n' :: cs => [] :: lines cs
  | c :: cs =>
    match lines cs with
    | [] => [[c]]
    | line :: rest => (c :: line) :: rest

end MipsMacro.Text

import MipsMacro.Options
import MipsMacro.Token

/-!
Putting a substitute for a token into a line.
-/

namespace MipsMacro

namespace SpliceStrategy

/-- The line before and after the place where a token is replaced, if the line holds its text. An offset
so large that the end of the token starts again at zero is past the end of every line. -/
def cut? (strategy : SpliceStrategy) (t : Token) (line : List Char) :
    Option (List Char × List Char) :=
  let leftmost := Text.cutFirst? t.text.toList line
  match strategy with
  | trackOffsets => (Text.cutAt? t.text.toList t.offset line).or leftmost
  | firstOccurrence => leftmost

/-- The line with `substitute` in place of the token, or unchanged if it does not hold its text. -/
def splice (strategy : SpliceStrategy) (t : Token) (substitute line : List Char) : List Char :=
  match strategy.cut? t line with
  | some (pre, post) => pre ++ substitute ++ post
  | none => line

end SpliceStrategy

end MipsMacro

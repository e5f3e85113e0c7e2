import MipsMacro.Text.Lines
import MipsMacro.Token.Lexer

/-!
Programs as numbered lines. Lines count from one; a line has a text and tokens, and a program that
was not read from a source may lack either of them.
-/

namespace MipsMacro

structure SourceLine where
  text : Option String := none
  tokens : Option (List Token) := none
  deriving DecidableEq

structure Program where
  name : String
  lineCount : Nat
  line : Nat → SourceLine

namespace Program

/-- The program that has the given rows as its lines and no others. -/
def ofRows (name : String) (rows : List SourceLine) : Program :=
  let table := rows.toArray
  { name
    lineCount := table.size
    line := fun n => if n = 0 then {} else table[n - 1]?.getD {} }

/-- Lines with their tokens, the first of them numbered `n`. -/
def rows (name : String) (n : Nat) : List String → Except Error (List SourceLine)
  | [] => .ok []
  | text :: texts => do
    let tokens ← tokenize name n text
    let rest ← rows name (n + 1) texts
    return ⟨some text, some tokens⟩ :: rest

/-- Reads a source text; the first line that cannot be cut into tokens decides the error. -/
def ofSource (name source : String) : Except Error Program := do
  let rows ← rows name 1 ((Text.lines source.toList).map String.ofList)
  return ofRows name rows

/-- The tokens of a line, none if it lacks them. -/
def tokens (p : Program) (n : Nat) : List Token := (p.line n).tokens.getD []

/-- The text of a line, empty if it lacks one. -/
def text (p : Program) (n : Nat) : String := (p.line n).text.getD ""

/-- The numbers of the program's lines. -/
def lineNumbers (p : Program) : List Nat := List.range' 1 p.lineCount

end Program

end MipsMacro

import MipsMacro.Json.Basic
import MipsMacro.Json.Escape
import MipsMacro.Text.Search

/-!
The lexemes of JSON text: punctuation, literal names, numbers and strings, with blanks between them.
Numbers and strings are checked for their form here; what an escape spells is left open.
-/

namespace MipsMacro.Json

inductive Lexeme where
  | openBracket
  | closeBracket
  | openBrace
  | closeBrace
  | comma
  | colon
  | null
  | bool (value : Bool)
  | number (spelling : String)
  | string (spelling : String)
  deriving DecidableEq

/-- The inside of a string up to its closing quote, and what follows. Control characters must be
escaped, and an escape has its full length. -/
def stringBody : List Char → Option (List Char × List Char)
  | [] => none
  | c :: cs =>
    if c = '\x22' then
      some ([], cs)
    else if c = '\x5c' then
      match cs with
      | [] => none
      | d :: ds =>
        if d = 'u' then
          match ds with
          | h1 :: h2 :: h3 :: h4 :: rest => do
            let _ ← hex4? h1 h2 h3 h4
            let (body, rest) ← stringBody rest
            return (c :: d :: h1 :: h2 :: h3 :: h4 :: body, rest)
          | _ => none
        else do
          let _ ← shortEscape? d
          let (body, rest) ← stringBody ds
          return (c :: d :: body, rest)
    else if c.toNat < 0x20 then
      none
    else do
      let (body, rest) ← stringBody cs
      return (c :: body, rest)

/-- One or more digits. -/
def digits (cs : List Char) : Option (List Char × List Char) :=
  match cs.takeWhile Char.isDigit with
  | [] => none
  | taken => some (taken, cs.dropWhile Char.isDigit)

/-- The digits before the point: a zero stands alone. -/
def integerPart : List Char → Option (List Char × List Char)
  | [] => none
  | c :: cs => if c = '0' then some ([c], cs) else digits (c :: cs)

/-- A point with digits behind it, or nothing. -/
def fractionPart : List Char → Option (List Char × List Char)
  | [] => some ([], [])
  | c :: cs =>
    if c = '.' then do
      let (taken, rest) ← digits cs
      return (c :: taken, rest)
    else
      some ([], c :: cs)

/-- An exponent with or without a sign, or nothing. -/
def exponentPart : List Char → Option (List Char × List Char)
  | [] => some ([], [])
  | c :: cs =>
    if c = 'e' ∨ c = 'E' then
      match cs with
      | [] => none
      | s :: ss =>
        if s = '+' ∨ s = '-' then do
          let (taken, rest) ← digits ss
          return (c :: s :: taken, rest)
        else do
          let (taken, rest) ← digits (s :: ss)
          return (c :: taken, rest)
    else
      some ([], c :: cs)

/-- A number without its sign. -/
def unsignedNumber (cs : List Char) : Option (List Char × List Char) := do
  let (whole, rest) ← integerPart cs
  let (fraction, rest) ← fractionPart rest
  let (exponent, rest) ← exponentPart rest
  return (whole ++ fraction ++ exponent, rest)

def isSpace (c : Char) : Bool := c == ' ' || c == '\t' || c == '\n' || c == '\r'

/-- A literal name, of which the first letter has been read. -/
def literalName (name : List Char) (lexeme : Lexeme) (cs : List Char) : Option (Lexeme × List Char) :=
  (Text.behind? name cs).map fun rest => (lexeme, rest)

/-- The lexeme that a character is by itself. -/
def punctuation? (c : Char) : Option Lexeme :=
  if c = '[' then some .openBracket
  else if c = ']' then some .closeBracket
  else if c = '\x7b' then some .openBrace
  else if c = '\x7d' then some .closeBrace
  else if c = ',' then some .comma
  else if c = ':' then some .colon
  else none

/-- A number that starts with `c`. -/
def signedNumber (c : Char) (cs : List Char) : Option (Lexeme × List Char) :=
  if c = '-' then
    (unsignedNumber cs).map fun (body, rest) => (.number (String.ofList (c :: body)), rest)
  else
    (unsignedNumber (c :: cs)).map fun (body, rest) => (.number (String.ofList body), rest)

/-- The lexeme that starts with `c`, and what follows it. -/
def lexeme (c : Char) (cs : List Char) : Option (Lexeme × List Char) :=
  match punctuation? c with
  | some l => some (l, cs)
  | none =>
    if c = '\x22' then
      (stringBody cs).map fun (body, rest) => (.string (String.ofList body), rest)
    else if c = 'n' then literalName ['u', 'l', 'l'] .null cs
    else if c = 't' then literalName ['r', 'u', 'e'] (.bool true) cs
    else if c = 'f' then literalName ['a', 'l', 's', 'e'] (.bool false) cs
    else signedNumber c cs

end MipsMacro.Json

import MipsMacro.Error
import MipsMacro.Token

/-!
Macro calls. A line is read as leading labels, a name and arguments between commas; one pair of
parentheses around all arguments is dropped, and a comma inside parentheses does not divide. Whether
the name is that of a macro is not decided here.
-/

namespace MipsMacro

/-- The labels `name :` in front of a line, and the tokens behind them. -/
def splitLabels : List Token → List String × List Token
  | name :: colon :: rest =>
    if name.kind = .identifier ∧ colon.kind = .colon then
      let (labels, body) := splitLabels rest
      (name.text :: labels, body)
    else
      ([], name :: colon :: rest)
  | tokens => ([], tokens)

/-- The texts handed to a macro. Slot zero is the macro's own name, and the argument of the
parameter at position `i` is in slot `i + 1`. -/
structure Arguments where
  slots : List String
  deriving DecidableEq

namespace Arguments

def ofCall (name : String) (arguments : List String) : Arguments := ⟨name :: arguments⟩

def macroName (a : Arguments) : String := a.slots.headD ""

def toList (a : Arguments) : List String := a.slots.tail

def arity (a : Arguments) : Nat := a.toList.length

/-- The argument of the parameter at a position. -/
def get? (a : Arguments) (i : Nat) : Option String := a.toList[i]?

end Arguments

structure Call where
  labels : List String
  name : String
  arguments : Arguments
  location : Location
  deriving DecidableEq

namespace Call

/-- The number of parentheses open after a token; a closing one too many counts for nothing. -/
def depthAfter (depth : Nat) (t : Token) : Nat :=
  if t.kind = .leftParen then depth + 1 else if t.kind = .rightParen then depth - 1 else depth

/-- Whether a closing parenthesis before the last token leaves none open. -/
def closesEarly : Nat → List Token → Bool
  | _, [] => false
  | _, [_] => false
  | depth, t :: rest =>
    let after := depthAfter depth t
    (t.kind = .rightParen && after = 0) || closesEarly after rest

/-- Drops a pair of parentheses around all tokens. -/
def stripParens (tokens : List Token) : List Token :=
  if tokens.head?.any (·.kind = .leftParen) && tokens.getLast?.any (·.kind = .rightParen) &&
      !closesEarly 0 tokens then
    tokens.tail.dropLast
  else
    tokens

/-- The groups between commas that stand outside parentheses. -/
def splitTopLevel (depth : Nat) : List Token → List (List Token)
  | [] => [[]]
  | t :: rest =>
    if t.kind = .comma ∧ depth = 0 then
      [] :: splitTopLevel depth rest
    else
      match splitTopLevel (depthAfter depth t) rest with
      | [] => [[t]]
      | group :: groups => (t :: group) :: groups

/-- Where a group that ends with this token ends in the source. Offsets are 64-bit words and start again
at zero behind the largest; an end inside the source is small enough. -/
def groupStop (source : List Char) (last : Token) : Nat :=
  if last.stop ≤ Text.byteSize source then last.stop else last.stop % UInt64.size

theorem groupStop_eq {source : List Char} {last : Token} (h : last.stop ≤ Text.byteSize source) :
    groupStop source last = last.stop := if_pos h

/-- The source text from the first to the last token of a group, spacing as written; if the tokens do
not fit the source, their own texts one after the other. -/
def groupText (source : List Char) (group : List Token) : String :=
  match group.head?, group.getLast? with
  | some first, some last =>
    match Text.slice? source first.offset (groupStop source last) with
    | some cs => String.ofList cs
    | none => String.join (group.map Token.text)
  | _, _ => ""

/-- The argument texts of a call. -/
def argumentTexts (source : List Char) (tokens : List Token) : List String :=
  match stripParens tokens with
  | [] => []
  | body => (splitTopLevel 0 body).map (groupText source)

/-- Reads a line as a call: after its labels comes an identifier. -/
def parse? (file source : String) (tokens : List Token) : Option Call :=
  let (labels, body) := splitLabels tokens
  match body with
  | [] => none
  | head :: rest =>
    if head.kind = .identifier then
      some
        { labels
          name := head.text
          arguments := .ofCall head.text (argumentTexts source.toList rest)
          location := .ofNat file head.line head.column }
    else
      none

end Call

end MipsMacro

import MipsMacro.Json.Reader
import MipsMacro.Text.Decimal

/-!
Reading JSON values as data. A record is an object with its fields as members, in any order and with
any other members between them, or an array of its fields in order; a field that is given twice is
refused. A choice among names is a string, or an object with that name for its one key and null for
its value.
-/

namespace MipsMacro.Json

/-- The text that the spelling of a string stands for. -/
def text? (spelling : String) : Option String := (unescape spelling.toList).map String.ofList

def asBool? : Json → Option Bool
  | .bool b => some b
  | _ => none

def asString? : Json → Option String
  | .string spelling => text? spelling
  | _ => none

def asArray? : Json → Option (List Json)
  | .array items => some items
  | _ => none

/-- A natural number below a bound, written with digits alone. -/
def asNat? (bound : Nat) : Json → Option Nat
  | .number spelling => (Text.ofDecimal? spelling.toList).filter (Nat.blt · bound)
  | _ => none

/-- The name that a choice is made by. -/
def asChoice? : Json → Option String
  | .string spelling => text? spelling
  | .object [(key, .null)] => text? key
  | _ => none

/-- Members with their keys read; one key that spells no text spoils them all. -/
def readKeys : List (String × Json) → Option (List (String × Json))
  | [] => some []
  | (key, v) :: rest => do
    let key ← text? key
    let rest ← readKeys rest
    return (key, v) :: rest

/-- Whether no key occurs twice. -/
def distinctKeys : List (String × Json) → Bool
  | [] => true
  | (key, _) :: rest => !(rest.any (·.1 == key)) && distinctKeys rest

/-- The given ones among the named fields of a record. -/
def asRecord? (fields : List String) : Json → Option (List (String × Json))
  | .object members => do
    let members ← readKeys members
    let known := members.filter fun (key, _) => fields.contains key
    if distinctKeys known then some known else none
  | .array items => if items.length ≤ fields.length then some (fields.zip items) else none
  | _ => none

/-- A field of a record that may be left out. -/
def field? {α : Type} (record : List (String × Json)) (name : String) (read : Json → Option α)
    (default : α) : Option α :=
  match record.lookup name with
  | some v => read v
  | none => some default

/-- A field of a record that must be given. -/
def required? {α : Type} (record : List (String × Json)) (name : String) (read : Json → Option α) :
    Option α :=
  record.lookup name >>= read

end MipsMacro.Json

import MipsMacro.Call
import MipsMacro.Definition
import MipsMacro.Diagnostic
import MipsMacro.Parameter
import MipsMacro.Sorting
import MipsMacro.Splice

/-!
The body of a macro with arguments in place of its parameters. Tokens are replaced from the right end
of a line to the left, so that a replacement does not move those that are still to come. Labels that
the body declares get a suffix and the number of the invocation. A parameter that cannot be replaced
is complained about and stays as it is.
-/

namespace MipsMacro

/-- What becomes of a token of the body. -/
inductive TokenRole where
  /-- A parameter, and the argument for it. -/
  | argument (text : String)
  /-- A parameter of the macro for which the call has no argument. -/
  | missing
  /-- A parameter that the macro does not have. -/
  | unknown
  /-- A label that the body declares. -/
  | localLabel
  | plain
  deriving DecidableEq

/-- One use of a macro. -/
structure Invocation where
  definition : Definition
  arguments : Arguments
  id : UInt64

namespace Invocation

def role (engine : Engine) (i : Invocation) (text : String) : TokenRole :=
  if engine.isParameter text then
    match i.definition.parameterIndex? text with
    | some index =>
      match i.arguments.get? index with
      | some argument => .argument argument
      | none => .missing
    | none => .unknown
  else if i.definition.locals.contains text then
    .localLabel
  else
    .plain

/-- A label of the body as this invocation declares it. -/
def rename (suffix : String) (id : UInt64) (label : String) : String :=
  label ++ suffix ++ Text.decimal id.toNat

/-- What is put in the place of a token, if anything is. -/
def substitute? (engine : Engine) (i : Invocation) (t : Token) : Option String :=
  match i.role engine t.text with
  | .argument text => some text
  | .missing => some t.text
  | .unknown => some t.text
  | .localLabel => some (rename engine.options.labelSuffix i.id t.text)
  | .plain => none

/-- Where a token of the body stands in the file that the macro was written in. -/
def location (i : Invocation) (t : Token) : Location :=
  .ofNat i.definition.program.name ((i.definition.range.fileLine? t.line).getD t.line) t.column

/-- The complaint about a token, if there is one. -/
def complaint? (engine : Engine) (i : Invocation) (t : Token) : Option Diagnostic :=
  match i.role engine t.text with
  | .missing =>
    some <| (Diagnostic.error ("Missing argument for macro parameter '" ++ t.text ++ "'")
      (i.location t)).withNote ("macro '" ++ i.definition.name ++ "' was called with " ++
        Text.decimal i.arguments.arity ++ " argument(s)")
  | .unknown =>
    some <| (Diagnostic.error "Unknown macro parameter" (i.location t)).withNote
      ("'" ++ t.text ++ "' is not a parameter of macro '" ++ i.definition.name ++ "'")
  | _ => none

/-- Tokens from right to left; those with one offset keep their order. -/
def rightToLeft (tokens : List Token) : List Token :=
  sortBy (fun a b => Nat.ble b.offset a.offset) tokens

/-- Replaces one token of a line. -/
def apply (engine : Engine) (i : Invocation) (line : List Char) (t : Token) : List Char :=
  match i.substitute? engine t with
  | some text => engine.options.splice.splice t text.toList line
  | none => line

/-- A line of the body with every token replaced, and the complaints about it. -/
def line (engine : Engine) (i : Invocation) (n : Nat) : Except Error (String × List Diagnostic) :=
  let range := i.definition.range
  let source := i.definition.program.line n
  match range.contains n, source.text, source.tokens with
  | true, some text, some tokens =>
    let tokens := rightToLeft tokens
    .ok (String.ofList (tokens.foldl (i.apply engine) text.toList),
      tokens.filterMap (i.complaint? engine))
  | _, _, _ => .error (.lineOutOfRange i.definition.name n range.first range.last)

/-- The `count` lines of the body from line `n` on, up to the first that the definition does not
hold. -/
def linesFrom (engine : Engine) (i : Invocation) (n : Nat) : Nat → Outcome (List String)
  | 0 => ⟨.ok [], []⟩
  | count + 1 =>
    match i.line engine n with
    | .error e => ⟨.error e, []⟩
    | .ok (text, diagnostics) =>
      let rest := i.linesFrom engine (n + 1) count
      ⟨rest.result.map (text :: ·), diagnostics ++ rest.diagnostics⟩

/-- The whole body, without the two directives. -/
def expand (engine : Engine) (i : Invocation) : Outcome (List String) :=
  let range := i.definition.range
  i.linesFrom engine range.bodyStart range.bodySize

end Invocation

end MipsMacro

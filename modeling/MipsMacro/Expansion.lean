import MipsMacro.Block
import MipsMacro.Substitution

/-!
The expansion of a whole program. Macro blocks are left out, calls are replaced by the bodies of their
macros, and every other line stays as it is. Each call that is replaced takes the next invocation
number; numbers start again at zero after the largest. What a call is replaced by is not read again.
-/

namespace MipsMacro

/-- What becomes of a line of a program. -/
inductive LineRole where
  /-- The opening of a block, of which only the leading labels stay. -/
  | header (labels : List String)
  /-- Another line of a block. -/
  | hidden
  /-- A call by the name of a macro that is not defined with this number of parameters. -/
  | unresolved (call : Call)
  | call (call : Call) (definition : Definition)
  | plain

namespace Expansion

def role (scan : Scan) (program : Program) (n : Nat) : LineRole :=
  if scan.isDefinitionLine n then
    if scan.isHeader n then .header (splitLabels (program.tokens n)).1 else .hidden
  else
    match Call.parse? program.name (program.text n) (program.tokens n) with
    | none => .plain
    | some call =>
      if scan.table.containsName call.name then
        match scan.table.lookup call.name call.arguments.arity with
        | some definition => .call call definition
        | none => .unresolved call
      else
        .plain

/-- The invocation number after a line. -/
def advance (id : UInt64) : LineRole → UInt64
  | .call _ _ => id + 1
  | _ => id

/-- Each label on a line of its own. -/
def labelLines (labels : List String) : List String := labels.map (· ++ ":")

/-- The complaint about a call that no definition fits. -/
def mismatch (table : MacroTable) (call : Call) : Diagnostic :=
  (Diagnostic.error ("No macro '" ++ call.name ++ "' takes " ++ Text.decimal call.arguments.arity ++
    " argument(s)") call.location).withNote ("defined with [" ++
      String.intercalate ", " ((table.arities call.name).map Text.decimal) ++ "] parameter(s)")

/-- The lines that a line with the text `text` and the given role is replaced by. -/
def segment (engine : Engine) (table : MacroTable) (id : UInt64) (text : String) :
    LineRole → Outcome (List String)
  | .header labels => ⟨.ok (labelLines labels), []⟩
  | .hidden => ⟨.ok [], []⟩
  | .unresolved call => ⟨.ok [text], [mismatch table call]⟩
  | .call call definition =>
    let body := Invocation.expand engine ⟨definition, call.arguments, id⟩
    ⟨body.result.map (labelLines call.labels ++ ·), body.diagnostics⟩
  | .plain => ⟨.ok [text], []⟩

end Expansion

/-- The lines of an expansion, what was complained about, and the next invocation number. -/
structure Expansion extends Outcome (List String) where
  next : UInt64

namespace Expansion

/-- Expands the given lines, up to a call whose body cannot be read. -/
def ofLines (engine : Engine) (scan : Scan) (program : Program) (id : UInt64) :
    List Nat → Expansion
  | [] => { result := .ok [], diagnostics := [], next := id }
  | n :: ns =>
    let role := role scan program n
    let here := segment engine scan.table id (program.text n) role
    let id := advance id role
    match here.result with
    | .error e => { result := .error e, diagnostics := here.diagnostics, next := id }
    | .ok lines =>
      let rest := ofLines engine scan program id ns
      { result := rest.result.map (lines ++ ·)
        diagnostics := here.diagnostics ++ rest.diagnostics
        next := rest.next }

def ofProgram (engine : Engine) (scan : Scan) (program : Program) (id : UInt64) : Expansion :=
  ofLines engine scan program id program.lineNumbers

/-- Lines as one text in which each of them is ended. -/
def unlines (lines : List String) : String := String.join (lines.map (· ++ "\n"))

/-- The expanded text. -/
def output (e : Expansion) : Except Error String := e.result.map unlines

end Expansion

/-- Reads a source, collects its macros and expands it. -/
def expandSource (options : Options) (name source : String) : Outcome String :=
  match Program.ofSource name source with
  | .error e => ⟨.error e, []⟩
  | .ok program =>
    let engine : Engine := { options }
    let scan := Scan.ofProgram engine program
    match scan.result with
    | .error e => ⟨.error e, scan.diagnostics⟩
    | .ok found =>
      let expansion := Expansion.ofProgram engine found program options.firstInvocation
      ⟨expansion.output, scan.diagnostics ++ expansion.diagnostics⟩

end MipsMacro

import MipsMacro.Call
import MipsMacro.Diagnostic
import MipsMacro.MacroTable
import MipsMacro.Parameter

/-!
Macro blocks. A block goes from a line that opens it to the next line that closes it, blocks do not
nest, and every block of a program is committed to a table in order, so that the last one of a
signature counts. The first line that breaks these rules ends the scan.
-/

namespace MipsMacro

/-- What a line does to the blocks around it. -/
inductive Mark where
  /-- A `.macro` directive and the tokens behind it. -/
  | opening (directive : Token) (header : List Token)
  /-- An `.end_macro` directive. -/
  | closing (directive : Token)
  | plain

/-- Reads a line without its leading labels; directives are recognised in any letter case. -/
def Mark.ofTokens : List Token → Mark
  | [] => plain
  | t :: rest =>
    if t.kind = .directive then
      let word := t.text.toList.map Char.toLower
      if word = ".macro".toList then opening t rest
      else if word = ".end_macro".toList then closing t
      else plain
    else
      plain

/-- Why a block is not well formed. -/
inductive BlockFault where
  | nested (outer : String)
  | strayEnd
  | nameExpected
  | invalidName (text : String)
  | invalidParameter (text : String)
  | unclosed (name : String)
  deriving DecidableEq

def BlockFault.message : BlockFault → String
  | nested outer => "Nested macro definition inside '" ++ outer ++ "' is not supported"
  | strayEnd => ".end_macro without matching .macro"
  | nameExpected => "Macro name expected after .macro"
  | invalidName text => "Invalid macro name '" ++ text ++ "'"
  | invalidParameter text => "Invalid macro parameter '" ++ text ++ "'"
  | unclosed name => "Macro '" ++ name ++ "' is missing .end_macro"

def BlockFault.errorAt (fault : BlockFault) (location : Location) : Error :=
  .malformed location fault.message

/-- A fault found at a token. -/
def BlockFault.errorAtToken (fault : BlockFault) (file : String) (t : Token) : Error :=
  fault.errorAt (.ofNat file t.line t.column)

namespace Block

/-- Commas and parentheses may stand anywhere between the parameters of a header. -/
def isSeparator (t : Token) : Bool :=
  t.kind = .comma || t.kind = .leftParen || t.kind = .rightParen

/-- The parameters behind the name in a header. -/
def parameters (engine : Engine) : List Token → Except (Token × BlockFault) (List String)
  | [] => .ok []
  | t :: rest =>
    if isSeparator t then
      parameters engine rest
    else if engine.isParameter t.text then
      (parameters engine rest).map (t.text :: ·)
    else
      .error (t, .invalidParameter t.text)

/-- The name and the parameters behind an opening directive. -/
def header (engine : Engine) (directive : Token) :
    List Token → Except (Token × BlockFault) (String × List String)
  | [] => .error (directive, .nameExpected)
  | t :: rest =>
    if t.kind = .identifier then
      (parameters engine rest).map fun names => (t.text, names)
    else
      .error (t, .invalidName t.text)

/-- The blocks that are closed in the given lines, the first of which may lie inside the block
`current`, and the error that ends the reading, if there is one. -/
def collect (engine : Engine) (program : Program) (current : Option Draft) :
    List Nat → List Definition × Option Error
  | [] =>
    match current with
    | none => ([], none)
    | some draft =>
      ([], some ((BlockFault.unclosed draft.name).errorAt (.lineStart program.name draft.range.first)))
  | line :: lines =>
    let (labels, body) := splitLabels (program.tokens line)
    match Mark.ofTokens body, current with
    | .opening directive _, some draft =>
      ([], some ((BlockFault.nested draft.name).errorAtToken program.name directive))
    | .opening directive rest, none =>
      match header engine directive rest with
      | .error (token, fault) => ([], some (fault.errorAtToken program.name token))
      | .ok (name, parameters) =>
        let draft : Draft := { name, program, parameters }
        collect engine program (some (draft.beginAt line line)) lines
    | .closing directive, none =>
      ([], some (BlockFault.strayEnd.errorAtToken program.name directive))
    | .closing _, some draft =>
      let (blocks, error) := collect engine program none lines
      (((draft.addLabels labels).endAt line line).finish :: blocks, error)
    | .plain, some draft => collect engine program (some (draft.addLabels labels)) lines
    | .plain, none => collect engine program none lines

end Block

/-- The macros that a program defines and the first and last lines of their blocks. -/
structure Scan where
  table : MacroTable := {}
  blocks : List (Nat × Nat) := []

namespace Scan

/-- Whether a line belongs to a block, its two directives included. -/
def isDefinitionLine (s : Scan) (line : Nat) : Bool :=
  s.blocks.any fun (first, last) => Nat.ble first line && Nat.ble line last

/-- Whether a line opens a block. -/
def isHeader (s : Scan) (line : Nat) : Bool := s.blocks.any fun (first, _) => first == line

/-- Commits definitions one after the other, with a warning for each that replaces another. -/
def commitAll (table : MacroTable) : List Definition → MacroTable × List Diagnostic
  | [] => (table, [])
  | d :: ds =>
    let (old, table) := table.commit d
    let (final, warnings) := commitAll table ds
    let warning :=
      Diagnostic.warning ("Macro '" ++ d.signature.render ++ "' redefined")
        (.lineStart d.program.name d.range.last)
    (final, if old.isSome then warning :: warnings else warnings)

/-- Collects the blocks of a program. Redefinitions before an error are still reported. -/
def ofProgram (engine : Engine) (program : Program) : Outcome Scan :=
  let (definitions, error) := Block.collect engine program none program.lineNumbers
  let (table, warnings) := commitAll {} definitions
  match error with
  | some e => ⟨.error e, warnings⟩
  | none => ⟨.ok ⟨table, definitions.map fun d => (d.range.first, d.range.last)⟩, warnings⟩

end Scan

end MipsMacro

import MipsMacro.Command.Arguments
import MipsMacro.Command.Files
import MipsMacro.Diagnostic.Json
import MipsMacro.Expansion
import MipsMacro.Options.Json

/-!
The run of `mexp`. The options come from the configuration, if one is named, with the flags of the
command line over them. The expanded text is written even if errors were reported; the run then fails
all the same. An error that prevents the expansion is the only thing that is printed.
-/

namespace MipsMacro.Command

/-- How a run ends and what it prints. -/
structure Exit where
  code : UInt32
  stdout : String := ""
  stderr : String := ""
  deriving DecidableEq

/-- A failure, and what it was caused by. -/
structure Failure where
  message : String
  cause : Option String := none

def Failure.render (f : Failure) : String :=
  "Error: " ++ f.message ++
    (match f.cause with
    | some cause => "\n\nCaused by:\n    " ++ cause
    | none => "") ++ "\n"

def Failure.exit (f : Failure) : Exit := { code := 1, stderr := f.render }

def versionText : String := "mexp 0.1.0\n"

def usage : String := "Usage: mexp [OPTIONS] <INPUT>\n"

def helpText : String :=
  "Expands .macro definitions in MIPS assembly source\n\n" ++ usage ++
    "\nArguments:\n" ++
    "  <INPUT>  Input assembly file\n" ++
    "\nOptions:\n" ++
    "  -o, --output <OUTPUT>            Output expanded file (defaults to stdout)\n" ++
    "      --config <FILE>              JSON file with expansion options\n" ++
    "      --no-spim                    Only accept %name macro parameters, not SPIM-style $name\n" ++
    "      --first-occurrence           Splice substitutes at the first textual match instead of the token offset\n" ++
    "      --first-invocation <N>       First macro invocation id\n" ++
    "      --diagnostics <DIAGNOSTICS>  How diagnostics are printed [default: text] [possible values: text, json]\n" ++
    "  -v, --verbose                    Verbose output\n" ++
    "  -h, --help                       Print help\n" ++
    "  -V, --version                    Print version\n"

/-- The exit of a command line that asks for no run. -/
def Stop.exit : Stop → Exit
  | .help => { code := 0, stdout := helpText }
  | .version => { code := 0, stdout := versionText }
  | .misuse m => { code := 2, stderr := "error: " ++ m.message ++ "\n\n" ++ usage }

namespace Task

/-- Options with the flags of the command line over them. -/
def override (t : Task) (o : Options) : Options :=
  { o with
    acceptSpimParameters := o.acceptSpimParameters && !t.noSpim
    splice := if t.firstOccurrence then .firstOccurrence else o.splice
    firstInvocation := t.firstInvocation.getD o.firstInvocation }

/-- The options of a run. -/
def loadOptions {m : Type → Type} [Monad m] (files : Files m) (t : Task) :
    m (Except Failure Options) := do
  match t.config with
  | none => return .ok (t.override {})
  | some path =>
    match ← files.read path with
    | .error fault =>
      return .error ⟨"Failed to read config file '" ++ path ++ "'", some fault.message⟩
    | .ok text =>
      match Options.ofText text with
      | .error e => return .error { message := e.message }
      | .ok options => return .ok (t.override options)

/-- The diagnostics as they are printed. -/
def printed (format : Format) (report : Report) : String :=
  match format with
  | .text => String.join (report.diagnostics.map (·.render ++ "\n"))
  | .json => report.jsonText ++ "\n"

/-- The exit after the expanded text was written. -/
def finish (printed stdout : String) (report : Report) : Exit :=
  if report.hasErrors then
    ⟨1, stdout, printed ++ Failure.render { message := report.summary }⟩
  else
    ⟨0, stdout, printed⟩

/-- Writes what an expansion gave. -/
def deliver {m : Type → Type} [Monad m] (files : Files m) (t : Task) (outcome : Outcome String) :
    m Exit := do
  match outcome.result with
  | .error e => return Failure.exit { message := e.message }
  | .ok text =>
    let report := ({} : Report).add outcome.diagnostics
    let printed := printed t.diagnostics report
    match t.output with
    | none => return finish printed text report
    | some path =>
      match ← files.write path text with
      | .ok _ => return finish printed "" report
      | .error fault => return ⟨1, "", printed ++ Failure.render { message := fault.message }⟩

def run {m : Type → Type} [Monad m] (files : Files m) (t : Task) : m Exit := do
  match ← t.loadOptions files with
  | .error failure => return failure.exit
  | .ok options =>
    match ← files.read t.input with
    | .error fault =>
      return Failure.exit ⟨"Failed to read '" ++ t.input ++ "'", some fault.message⟩
    | .ok source => t.deliver files (expandSource options t.input source)

end Task

/-- Runs the command with the given arguments. -/
def run {m : Type → Type} [Monad m] (files : Files m) (arguments : List String) : m Exit :=
  match Task.ofArguments arguments with
  | .error stop => return stop.exit
  | .ok task => task.run files

end MipsMacro.Command

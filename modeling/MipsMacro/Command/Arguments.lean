import MipsMacro.Text.Decimal

/-!
The command line of `mexp`. Arguments are taken from left to right, and the first one that asks for the
version or the help, or that breaks a rule, decides. No option may be given twice.
-/

namespace MipsMacro.Command

/-- How diagnostics are printed. -/
inductive Format where
  | text
  | json
  deriving DecidableEq

/-- An option without a value. -/
inductive Flag where
  | noSpim
  | firstOccurrence
  | verbose
  | help
  | version
  deriving DecidableEq

def Flag.ofLong? (name : String) : Option Flag :=
  if name = "no-spim" then some noSpim
  else if name = "first-occurrence" then some firstOccurrence
  else if name = "verbose" then some verbose
  else if name = "help" then some help
  else if name = "version" then some version
  else none

def Flag.ofShort? (c : Char) : Option Flag :=
  if c = 'v' then some verbose
  else if c = 'h' then some help
  else if c = 'V' then some version
  else none

/-- An option with a value. -/
inductive Setting where
  | output
  | config
  | firstInvocation
  | diagnostics
  deriving DecidableEq

def Setting.ofLong? (name : String) : Option Setting :=
  if name = "output" then some output
  else if name = "config" then some config
  else if name = "first-invocation" then some firstInvocation
  else if name = "diagnostics" then some diagnostics
  else none

def Setting.ofShort? (c : Char) : Option Setting := if c = 'o' then some output else none

/-- The arguments read so far. -/
structure Collected where
  input : Option String := none
  output : Option String := none
  config : Option String := none
  firstInvocation : Option UInt64 := none
  diagnostics : Option Format := none
  noSpim : Bool := false
  firstOccurrence : Bool := false
  verbose : Bool := false
  deriving DecidableEq

/-- What is wrong with a command line. -/
inductive Misuse where
  | unexpected (argument : String)
  | unexpectedValue (option : String)
  | missingValue (option : String)
  | invalidValue (value : String)
  | repeated
  | missingInput
  deriving DecidableEq

def Misuse.message : Misuse → String
  | unexpected argument => "unexpected argument '" ++ argument ++ "' found"
  | unexpectedValue option => "unexpected value for '" ++ option ++ "' found; no more were expected"
  | missingValue option => "a value is required for '" ++ option ++ "' but none was supplied"
  | invalidValue value => "invalid value '" ++ value ++ "'"
  | repeated => "an argument cannot be used multiple times"
  | missingInput => "the following required arguments were not provided: <INPUT>"

/-- Why the reading of a command line ends before its end. -/
inductive Stop where
  | help
  | version
  | misuse (m : Misuse)
  deriving DecidableEq

/-- A number of 64 bits in decimal notation, with or without a plus sign. -/
def word? (s : String) : Option UInt64 :=
  let digits :=
    match s.toList with
    | '+' :: digits => digits
    | digits => digits
  ((Text.ofDecimal? digits).filter (Nat.blt · UInt64.size)).map Nat.toUInt64

/-- A path, which is not empty. -/
def path? (s : String) : Option String := if s.isEmpty then none else some s

def Format.ofName? (s : String) : Option Format :=
  if s = "text" then some text else if s = "json" then some json else none

/-- A value read for the first time. -/
def once {α : Type} (old : Option α) (read : String → Option α) (value : String) :
    Except Stop (Option α) :=
  match old, read value with
  | some _, _ => .error (.misuse .repeated)
  | none, none => .error (.misuse (.invalidValue value))
  | none, some new => .ok (some new)

/-- A flag raised for the first time. -/
def raise (old : Bool) : Except Stop Bool :=
  if old then .error (.misuse .repeated) else .ok true

namespace Collected

def addFlag (a : Collected) : Flag → Except Stop Collected
  | .noSpim => (raise a.noSpim).map fun b => { a with noSpim := b }
  | .firstOccurrence => (raise a.firstOccurrence).map fun b => { a with firstOccurrence := b }
  | .verbose => (raise a.verbose).map fun b => { a with verbose := b }
  | .help => .error .help
  | .version => .error .version

def addSetting (a : Collected) (value : String) : Setting → Except Stop Collected
  | .output => (once a.output path? value).map fun v => { a with output := v }
  | .config => (once a.config path? value).map fun v => { a with config := v }
  | .firstInvocation => (once a.firstInvocation word? value).map fun v => { a with firstInvocation := v }
  | .diagnostics => (once a.diagnostics Format.ofName? value).map fun v => { a with diagnostics := v }

/-- There is one input. -/
def addInput (a : Collected) (value : String) : Except Stop Collected :=
  match a.input with
  | some _ => .error (.misuse (.unexpected value))
  | none => (once none path? value).map fun v => { a with input := v }

/-- Reads the letters behind a single dash. The rest of the letters behind a setting is its value; if
there is none, the setting still waits for it. -/
def addLetters (a : Collected) : List Char → Except Stop (Collected × Option Setting)
  | [] => .ok (a, none)
  | c :: cs =>
    match Flag.ofShort? c with
    | some flag => do
      let a ← a.addFlag flag
      a.addLetters cs
    | none =>
      match Setting.ofShort? c, cs with
      | none, _ => .error (.misuse (.unexpected (String.ofList ['-', c])))
      | some setting, [] => .ok (a, some setting)
      | some setting, v :: vs => do
        let a ← a.addSetting (String.ofList (if v = '=' then vs else v :: vs)) setting
        return (a, none)

/-- What an argument is by its form. -/
inductive Form where
  /-- Two dashes alone: only inputs follow. -/
  | inputsFollow
  /-- A name behind two dashes, and what stands behind an equals sign. -/
  | long (name : String) (value : Option String)
  | letters (cs : List Char)
  | input

def form (argument : String) : Form :=
  match argument.toList with
  | '-' :: '-' :: [] => .inputsFollow
  | '-' :: '-' :: cs =>
    let name := cs.takeWhile (· != '=')
    .long (String.ofList name)
      (if name.length < cs.length then some (String.ofList (cs.drop (name.length + 1))) else none)
  | '-' :: c :: cs => .letters (c :: cs)
  | _ => .input

/-- Whether an argument can be the value of the setting before it. -/
def isValue (argument : String) : Bool :=
  match form argument with
  | .input => true
  | _ => false

/-- Reads one argument. The setting that waits for the next one comes second. -/
def addArgument (a : Collected) (argument : String) : Except Stop (Collected × Option Setting) :=
  match form argument with
  | .inputsFollow => .ok (a, none)
  | .input => (a.addInput argument).map fun a => (a, none)
  | .letters cs => a.addLetters cs
  | .long name value =>
    match Flag.ofLong? name, Setting.ofLong? name, value with
    | some flag, _, none => (a.addFlag flag).map fun a => (a, none)
    | some _, _, some _ => .error (.misuse (.unexpectedValue argument))
    | none, some setting, none => .ok (a, some setting)
    | none, some setting, some value => (a.addSetting value setting).map fun a => (a, none)
    | none, none, _ => .error (.misuse (.unexpected argument))

/-- Reads arguments of which all are inputs. -/
def addInputs (a : Collected) : List String → Except Stop Collected
  | [] => .ok a
  | argument :: rest => do
    let a ← a.addInput argument
    a.addInputs rest

/-- Reads arguments from left to right. -/
def addAll (a : Collected) : List String → Except Stop Collected
  | [] => .ok a
  | argument :: rest =>
    match form argument with
    | .inputsFollow => a.addInputs rest
    | _ =>
      match a.addArgument argument, rest with
      | .error stop, _ => .error stop
      | .ok (a, none), rest => a.addAll rest
      | .ok (_, some _), [] => .error (.misuse (.missingValue argument))
      | .ok (a, some setting), value :: rest =>
        if isValue value then
          match a.addSetting value setting with
          | .error stop => .error stop
          | .ok a => a.addAll rest
        else
          .error (.misuse (.missingValue argument))

end Collected

/-- What a well formed command line asks for. -/
structure Task where
  input : String
  output : Option String
  config : Option String
  firstInvocation : Option UInt64
  diagnostics : Format
  noSpim : Bool
  firstOccurrence : Bool
  deriving DecidableEq

/-- Reads a command line without the name of the program. -/
def Task.ofArguments (arguments : List String) : Except Stop Task := do
  let a ← Collected.addAll {} arguments
  match a.input with
  | none => .error (.misuse .missingInput)
  | some input =>
    return ⟨input, a.output, a.config, a.firstInvocation, a.diagnostics.getD .text, a.noSpim,
      a.firstOccurrence⟩

end MipsMacro.Command

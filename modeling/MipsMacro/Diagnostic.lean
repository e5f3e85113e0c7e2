import MipsMacro.Error

/-!
Complaints that do not end an operation. They are collected in the order in which they arise, and a
report counts and sums them up.
-/

namespace MipsMacro

inductive Severity where
  | error
  | warning
  | note
  deriving DecidableEq

def Severity.name : Severity → String
  | error => "error"
  | warning => "warning"
  | note => "note"

structure Diagnostic where
  severity : Severity
  message : String
  location : Location
  notes : List String := []
  deriving DecidableEq

namespace Diagnostic

def error (message : String) (location : Location) : Diagnostic :=
  ⟨.error, message, location, []⟩

def warning (message : String) (location : Location) : Diagnostic :=
  ⟨.warning, message, location, []⟩

def withNote (d : Diagnostic) (note : String) : Diagnostic :=
  { d with notes := d.notes ++ [note] }

/-- The complaint on one line, then each note on an indented line of its own. -/
def render (d : Diagnostic) : String :=
  d.location.render ++ ": " ++ d.severity.name ++ ": " ++ d.message ++
    String.join (d.notes.map ("\n  note: " ++ ·))

end Diagnostic

/-- Counters of errors and warnings, kept up with every diagnostic that is reported. -/
structure Tally where
  errors : Nat := 0
  warnings : Nat := 0
  deriving DecidableEq

def Tally.count (t : Tally) (d : Diagnostic) : Tally :=
  match d.severity with
  | .error => { t with errors := t.errors + 1 }
  | .warning => { t with warnings := t.warnings + 1 }
  | .note => t

/-- The counters of some diagnostics. -/
class Tallied (ds : List Diagnostic) where
  tally : Tally
  tally_eq : tally = ds.foldl Tally.count {}

/-- Diagnostics for which no counters were kept up are counted from the first one on. -/
instance (ds : List Diagnostic) : Tallied ds := ⟨ds.foldl Tally.count {}, rfl⟩

/-- The diagnostics reported so far, oldest first, and their counters. -/
structure Report where
  diagnostics : List Diagnostic := []
  [tallied : Tallied diagnostics]

namespace Report

/-- Reports further diagnostics. The counters go on from where they are. -/
def add (r : Report) (ds : List Diagnostic) : Report where
  diagnostics := r.diagnostics ++ ds
  tallied :=
    { tally := ds.foldl Tally.count r.tallied.tally
      tally_eq := by rw [List.foldl_append, r.tallied.tally_eq] }

def errors (r : Report) : Nat := r.tallied.tally.errors

def warnings (r : Report) : Nat := r.tallied.tally.warnings

def hasErrors (r : Report) : Bool := r.errors != 0

/-- A number of things, in the plural unless there is one of them. -/
private def counted (n : Nat) (thing : String) : String :=
  Text.decimal n ++ " " ++ thing ++ (if n = 1 then "" else "s")

def summary (r : Report) : String :=
  match r.errors, r.warnings with
  | 0, 0 => "No errors or warnings"
  | 0, w => counted w "warning"
  | e, 0 => counted e "error"
  | e, w => counted e "error" ++ " and " ++ counted w "warning"

end Report

/-- A result, or the error that prevented it, with the diagnostics reported on the way. -/
structure Outcome (α : Type) where
  result : Except Error α
  diagnostics : List Diagnostic := []

end MipsMacro

import MipsMacro.Diagnostic
import MipsMacro.Json.Record
import MipsMacro.Json.Writer

/-!
Diagnostics in JSON. A list of them is written as an array and read back field by field; no field
may be left out.
-/

namespace MipsMacro

namespace Severity

def ofName? (name : String) : Option Severity :=
  if name = "error" then some error
  else if name = "warning" then some warning
  else if name = "note" then some note
  else none

def ofJson? (v : Json) : Option Severity := v.asChoice? >>= ofName?

end Severity

namespace Location

def toJson (l : Location) : Json :=
  .object [("filename", .ofText l.file), ("line", .ofNat l.line.toNat),
    ("column", .ofNat l.column.toNat)]

def ofJson? (v : Json) : Option Location := do
  let word := fun v : Json => (v.asNat? UInt32.size).map Nat.toUInt32
  let given ← v.asRecord? ["filename", "line", "column"]
  let file ← Json.required? given "filename" Json.asString?
  let line ← Json.required? given "line" word
  let column ← Json.required? given "column" word
  return ⟨file, line, column⟩

end Location

namespace Diagnostic

def toJson (d : Diagnostic) : Json :=
  .object [("severity", .ofText d.severity.name), ("message", .ofText d.message),
    ("location", d.location.toJson), ("notes", .array (d.notes.map Json.ofText))]

def notesOfJson? (v : Json) : Option (List String) := do
  let items ← v.asArray?
  items.mapM Json.asString?

def ofJson? (v : Json) : Option Diagnostic := do
  let given ← v.asRecord? ["severity", "message", "location", "notes"]
  let severity ← Json.required? given "severity" Severity.ofJson?
  let message ← Json.required? given "message" Json.asString?
  let location ← Json.required? given "location" Location.ofJson?
  let notes ← Json.required? given "notes" notesOfJson?
  return ⟨severity, message, location, notes⟩

end Diagnostic

namespace Report

/-- The diagnostics as JSON text. -/
def jsonText (r : Report) : String := (Json.array (r.diagnostics.map Diagnostic.toJson)).render

/-- Reads a list of diagnostics from JSON text and reports them one after the other. -/
def ofJsonText (text : String) : Except Error Report :=
  match Json.parse? text >>= Json.asArray? >>= List.mapM Diagnostic.ofJson? with
  | some diagnostics => .ok (({} : Report).add diagnostics)
  | none => .error (.invalidConfig "the diagnostics are not well formed")

end Report

end MipsMacro

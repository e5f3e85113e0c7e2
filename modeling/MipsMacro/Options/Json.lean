import MipsMacro.Error
import MipsMacro.Json.Record
import MipsMacro.Options

/-!
Options in JSON. Every field may be left out and then has its default.
-/

namespace MipsMacro

def SpliceStrategy.ofJson? (v : Json) : Option SpliceStrategy := do
  let name ← v.asChoice?
  if name = "track_offsets" then some trackOffsets
  else if name = "first_occurrence" then some firstOccurrence
  else none

namespace Options

def fieldNames : List String :=
  ["accept_spim_parameters", "splice", "label_suffix", "first_invocation"]

def ofJson? (v : Json) : Option Options := do
  let given ← v.asRecord? fieldNames
  let defaults : Options := {}
  let spim ← Json.field? given "accept_spim_parameters" Json.asBool? defaults.acceptSpimParameters
  let splice ← Json.field? given "splice" SpliceStrategy.ofJson? defaults.splice
  let suffix ← Json.field? given "label_suffix" Json.asString? defaults.labelSuffix
  let first ← Json.field? given "first_invocation" (fun v => (v.asNat? UInt64.size).map Nat.toUInt64)
    defaults.firstInvocation
  return ⟨spim, splice, suffix, first⟩

/-- Reads options from JSON text. -/
def ofText (text : String) : Except Error Options :=
  match Json.parse? text >>= ofJson? with
  | some options => .ok options
  | none => .error (.invalidConfig "the options are not well formed")

end Options

end MipsMacro

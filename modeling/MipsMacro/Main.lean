import MipsMacro.Command.Run

/-!
The `mexp` program on the files of the system.
-/

namespace MipsMacro.Command

private def fault : IO.Error → FileFault
  | .noFileOrDirectory _ _ _ => .missing
  | .inappropriateType _ code _ =>
    if code == 21 || code == 0 - 21 then .isDirectory else .notDirectory
  | .invalidArgument _ code _ =>
    if code == 36 || code == 0 - 36 then .nameTooLong else .other "Invalid argument (os error 22)"
  | .permissionDenied _ _ _ => .other "Permission denied (os error 13)"
  | e => .other (toString e)

private def readFile (path : String) : IO (Except FileFault String) := do
  try
    match String.fromUTF8? (← IO.FS.readBinFile path) with
    | some text => return .ok text
    | none => return .error .notText
  catch e => return .error (fault e)

private def writeFile (path text : String) : IO (Except FileFault Unit) := do
  try
    IO.FS.writeFile path text
    return .ok ()
  catch e => return .error (fault e)

/-- The files of the system. -/
def Files.system : Files IO := ⟨readFile, writeFile⟩

end MipsMacro.Command

def main (arguments : List String) : IO UInt32 := do
  let exit ← MipsMacro.Command.run .system arguments
  (← IO.getStderr).putStr exit.stderr
  (← IO.getStdout).putStr exit.stdout
  return exit.code

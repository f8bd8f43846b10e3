import NativeBackend.CommandLine.Run

/-!
# The program

Runs a command on the files of the disk.
-/

namespace NativeBackend.CommandLine

/-- The words of the system for a failed access to a file, with the number of the error. -/
def systemText : IO.Error → String
  | .noFileOrDirectory _ code details
  | .permissionDenied _ code details
  | .inappropriateType _ code details
  | .resourceExhausted _ code details
  | .invalidArgument _ code details =>
    details ++ " (os error " ++ toString code ++ ")"
  | e => toString e

/-- The result of an access to a file, or the words for its failure. -/
def attempt {α : Type} (access : IO α) : IO (Except String α) := do
  try
    return .ok (← access)
  catch e => return .error (systemText e)

/-- The permissions of a written executable: all for its owner, all but writing for others. -/
def executableRights : IO.FileRight :=
  { user := ⟨true, true, true⟩, group := ⟨true, false, true⟩, other := ⟨true, false, true⟩ }

/-- The files of the disk. -/
def diskFiles : Files IO where
  read path := attempt (IO.FS.withFile path .read fun file ↦ file.readToEnd)
  write path bytes := attempt do
    IO.FS.writeBinFile path ⟨bytes.toArray⟩
    IO.setAccessRights path executableRights

end NativeBackend.CommandLine

/-- Runs the command that the arguments ask for. -/
def main (arguments : List String) : IO UInt32 := do
  let outcome ← NativeBackend.CommandLine.run NativeBackend.CommandLine.diskFiles arguments
  IO.print outcome.output
  IO.eprint outcome.errors
  return UInt32.ofNat outcome.status

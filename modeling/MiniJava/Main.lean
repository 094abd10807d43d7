import MiniJava.CommandLine.Run

/-!
# The program

The command line on the files of the disk.
-/

namespace MiniJava.CommandLine

/-- The fault that an error of the system stands for. -/
def faultOfError : IO.Error → FileFault
  | .noFileOrDirectory _ _ _ => .notFound
  | .inappropriateType _ 20 _ => .notDirectory
  | .inappropriateType _ 21 _ => .isDirectory
  | error => .system (toString error)

/-- Runs an action on the disk and keeps its fault as a value. -/
def attempt {α : Type} (action : IO α) : IO (Except FileFault α) := do
  try
    return .ok (← action)
  catch error => return .error (faultOfError error)

/-- The files of the disk. An executable may be run by everyone and changed by its
owner. -/
def disk : Files IO where
  read path := attempt (IO.FS.readBinFile path)
  writeExecutable path content := attempt do
    IO.FS.writeBinFile path content
    IO.setAccessRights path
      ⟨⟨true, true, true⟩, ⟨true, false, true⟩, ⟨true, false, true⟩⟩

end MiniJava.CommandLine

/-- Compiles what the arguments ask for. -/
def main (args : List String) : IO UInt32 := do
  let outcome ← MiniJava.CommandLine.run MiniJava.CommandLine.disk args
  IO.print outcome.stdout
  IO.eprint outcome.stderr
  return outcome.exitCode.toUInt32

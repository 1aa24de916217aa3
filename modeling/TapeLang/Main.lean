import TapeLang.CommandLine.Launch

/-!
# The command line

Runs the command-line program with the arguments, files and streams of the system.
-/

namespace TapeLang

/-- More steps than a run can take in practice. -/
def unboundedFuel : Nat := 0x4000000000000000

/-- Why a file could not be read, in the words of the system. -/
def readFailure : IO.Error → String
  | .noFileOrDirectory .. => "No such file or directory (os error 2)"
  | .permissionDenied .. => "Permission denied (os error 13)"
  | .inappropriateType .. => "Is a directory (os error 21)"
  | error => toString error

/-- Reads a file. -/
def readFile (path : String) : IO (Except String (Array UInt8)) := do
  try
    return .ok (← IO.FS.readBinFile path).data
  catch error =>
    return .error (readFailure error)

/-- Runs the command-line program on the streams of the system. -/
def launchOnSystem (arguments : List String) : IO UInt32 := do
  let input ← (← IO.getStdin).readBinToEnd
  let finish ← commandLine IO.monoNanosNow readFile unboundedFuel arguments
    (.ofBytes input.data.toList)
  let output ← IO.getStdout
  output.write ⟨finish.output⟩
  output.flush
  (← IO.getStderr).putStr finish.errors
  return finish.exitCode.toUInt32

end TapeLang

/-- The command-line program. -/
def main (arguments : List String) : IO UInt32 :=
  TapeLang.launchOnSystem arguments

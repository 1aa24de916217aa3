import TapeLang.CommandLine.Arguments
import TapeLang.CommandLine.Report
import TapeLang.Executor

/-!
# Launching programs

What the command-line program does: it reads a program file, makes an executor for the chosen
strategy, prepares it and executes the program, or lists the op stream instead. Time and files
come from outside, as actions of a monad.
-/

namespace TapeLang

/-- Why a launch failed. -/
inductive LaunchError where
  /-- The program file could not be read. -/
  | load (path text : String)
  /-- The program could not be compiled or run. -/
  | tool (error : Error)
  /-- The listing could not be written. -/
  | listing (text : String)
  deriving DecidableEq

/-- The failure in words. -/
def LaunchError.message : LaunchError → String
  | load path text => s!"could not read '{path}': {text}"
  | tool error => error.message
  | listing text => "I/O error: " ++ text

/-- What a launch came to. -/
structure Launch where
  /-- The report on the run, or why there was none; `none` if the run was cut off. -/
  result : Option (Except LaunchError RunReport)
  /-- What was written to the standard output. -/
  output : Array UInt8 := #[]
  /-- What the user was told. -/
  notices : List Notice := []

namespace Launch

/-- Writes the listing of a program's op stream. -/
def writeListing (settings : Settings) (program : Program) (output : Output) :
    Except LaunchError Unit × Output :=
  match program.compile settings.compileOptions with
  | .error error => (.error (.tool error), output)
  | .ok stream =>
    match output.writeAll stream.dump.toUTF8.toList with
    | (.ok (), output) => (.ok (), output)
    | (.error (.io text), output) => (.error (.listing text), output)
    | (.error error, output) => (.error (.tool error), output)

variable {m : Type → Type} [Monad m]

/-- Prepares and executes a program. `now` reads a clock, in nanoseconds. -/
def run (now : m Nat) (settings : Settings) (fuel : Nat) (program : Program) (input : Input) :
    m Launch := do
  let executor := Executor.ofStrategy settings.strategy settings.compileOptions settings.trace
  let ignored :=
    if settings.trace && !settings.strategy.isBytecode then
      [Notice.traceIgnored settings.strategy]
    else []
  let notices := ignored ++ [.selected executor.name]
  let started ← now
  match executor.prepare program with
  | (.error error, _) => return { result := some (.error (.tool error)), notices }
  | (.ok (), executor) =>
    let ready ← now
    let prepareTime := ready - started
    let notices := notices ++ [.prepared prepareTime]
    let execution := executor.execute fuel program input
    let ended ← now
    let runTime := ended - ready
    let notices := notices ++ (execution.profile.map Notice.profile).toList
    let output := execution.output
    match execution.result with
    | none => return { result := none, output, notices }
    | some (.error error) => return { result := some (.error (.tool error)), output, notices }
    | some (.ok ()) =>
      let report : RunReport :=
        { strategy := executor.name, programSize := program.size, prepareTime, runTime }
      return { result := some (.ok report), output, notices := notices ++ [.finished runTime] }

/-- Reads a program file with `read` and runs the program, or lists its op stream. -/
def file (now : m Nat) (read : String → m (Except String (Array UInt8))) (settings : Settings)
    (fuel : Nat) (path : String) (input : Input) : m Launch := do
  let started ← now
  match ← read path with
  | .error text => return { result := some (.error (.load path text)) }
  | .ok source =>
    let program := Program.ofBytes source
    let loaded ← now
    let loadTime := loaded - started
    let shown := if settings.verbose then [Notice.program program.text] else []
    if settings.dumpOps then
      let (written, output) := writeListing settings program .unlimited
      let report : RunReport :=
        { strategy := "dump-ops", programSize := program.size, loadTime }
      return {
        result := some (written.map fun _ => report), output := output.bytes, notices := shown }
    else
      let launch ← run now settings fuel program input
      let notices := shown ++ launch.notices
      match launch.result with
      | some (.ok report) =>
        let report := { report with loadTime }
        let told := if settings.verbose then [Notice.report report] else []
        return { launch with result := some (.ok report), notices := notices ++ told }
      | _ => return { launch with notices }

end Launch

/-- What the command-line program leaves behind. -/
structure Finish where
  /-- The exit code. -/
  exitCode : Nat
  /-- What was written to the standard output. -/
  output : Array UInt8
  /-- What was written to the standard error stream. -/
  errors : String

/-- The command-line program. The log tells of progress only if the user wants to know more. -/
def commandLine {m : Type → Type} [Monad m] (now : m Nat)
    (read : String → m (Except String (Array UInt8))) (fuel : Nat) (arguments : List String)
    (input : Input) : m Finish := do
  match Arguments.parse arguments with
  | .error stop =>
    let text := stop.message ++ "\n"
    if stop.exitCode = 0 then return ⟨0, text.toUTF8.data, ""⟩
    else return ⟨stop.exitCode, #[], text⟩
  | .ok ⟨path, settings⟩ =>
    let launch ← Launch.file now read settings fuel path input
    let told := launch.notices.filter fun notice => settings.verbose || !notice.isProgress
    let errors := String.join (told.map Notice.text)
    match launch.result with
    | some (.error error) =>
      return ⟨1, launch.output, errors ++ s!"Error: {error.message}\n"⟩
    | _ => return ⟨0, launch.output, errors⟩

end TapeLang

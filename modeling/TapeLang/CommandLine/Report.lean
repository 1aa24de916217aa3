import TapeLang.Decimal.Fixed
import TapeLang.Interpreter.Profile
import TapeLang.Strategy

/-!
# Reports on a run

What the program tells its user beside the output of the program that it runs. Times are given in
nanoseconds and reported in seconds with six decimal places.
-/

namespace TapeLang

/-- A time in nanoseconds, in seconds. The number of whole seconds and the rest are converted by
themselves, and the rest is divided. -/
def seconds (nanoseconds : Nat) : Float :=
  let whole := (nanoseconds / 1000000000).toUInt64.toFloat
  let rest := (nanoseconds % 1000000000).toUInt64.toFloat
  whole + rest / 1000000000

/-- A time in nanoseconds as it is reported. -/
def timeText (nanoseconds : Nat) : String :=
  Decimal.fixed 6 (seconds nanoseconds) ++ "s"

/-- Size and times of a run. -/
structure RunReport where
  /-- The name of the strategy that was followed. -/
  strategy : String
  /-- The number of instructions. -/
  programSize : Nat
  /-- How long it took to read the program. -/
  loadTime : Nat := 0
  /-- How long it took to make ready. -/
  prepareTime : Nat := 0
  /-- How long the program ran. -/
  runTime : Nat := 0
  deriving DecidableEq

/-- The report in words; the last line is not ended. -/
def RunReport.text (report : RunReport) : String :=
  s!"strategy:      {report.strategy}\n" ++
  s!"program size:  {report.programSize}\n" ++
  s!"load time:     {timeText report.loadTime}\n" ++
  s!"prepare time:  {timeText report.prepareTime}\n" ++
  s!"run time:      {timeText report.runTime}"

/-- Something that is told to the user. -/
inductive Notice where
  /-- The program that was read. -/
  | program (text : String)
  /-- A trace is asked for, but this strategy has none. -/
  | traceIgnored (strategy : Strategy)
  /-- The strategy that is followed. -/
  | selected (name : String)
  /-- The program is ready to run. -/
  | prepared (elapsed : Nat)
  /-- The program came to its end. -/
  | finished (elapsed : Nat)
  /-- What was executed. -/
  | profile (profile : Profile)
  /-- Size and times of the run. -/
  | report (report : RunReport)

namespace Notice

/-- Whether the notice is a message of progress, told only if the user wants to know more. -/
def isProgress : Notice → Bool
  | selected _ | prepared _ | finished _ => true
  | _ => false

/-- Whether the notice is a line of the log. -/
def isLog : Notice → Bool
  | traceIgnored _ => true
  | notice => notice.isProgress

/-- The notice in words. -/
def text : Notice → String
  | program source => s!"program: {source}\n"
  | traceIgnored strategy =>
    "WARN --trace only applies to the bytecode strategies; ignoring " ++
      s!"strategy={strategy.label}\n"
  | selected name => s!"INFO selected strategy strategy=\"{name}\"\n"
  | prepared elapsed => s!"INFO prepared program elapsed={timeText elapsed}\n"
  | finished elapsed => s!"INFO finished program elapsed={timeText elapsed}\n"
  | profile counted => counted.report
  | report run => run.text ++ "\n"

end Notice

end TapeLang

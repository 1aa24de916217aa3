import TapeLang.Strategy

/-!
# Command-line arguments

The arguments are read from left to right. An option that takes a value is decided only when the
next option, the program file or the end of the arguments is reached; an unknown argument in that
place is reported before a fault of the option. Options may stand anywhere, short ones may be
joined, and after `--` everything is a file.
-/

namespace TapeLang

/-- How a program is to be run. -/
structure Settings where
  /-- The way to run it. -/
  strategy : Strategy := .optimized
  /-- Report sizes and times. -/
  verbose : Bool := false
  /-- Report a profile. -/
  trace : Bool := false
  /-- Replace a loop that adds or subtracts a constant only if the constant is odd. -/
  strictZeroing : Bool := false
  /-- List the op stream instead of running it. -/
  dumpOps : Bool := false
  deriving DecidableEq

/-- How the program is to be compiled. -/
def Settings.compileOptions (settings : Settings) : CompileOptions :=
  settings.strategy.compileOptions { strictZeroing := settings.strictZeroing }

/-- A command line. -/
structure Arguments where
  /-- The program file. -/
  file : String
  /-- How to run it. -/
  settings : Settings
  deriving DecidableEq

/-- Why a command line names no program to run. -/
inductive ArgumentStop where
  /-- No program file is given. -/
  | missingFile
  /-- An option has no value or one that it does not allow. -/
  | invalidValue
  /-- There is no such option, or one file too many. -/
  | unknownArgument
  /-- An option is given twice. -/
  | repeated
  /-- A value is given to an option that takes none. -/
  | unneededValue
  /-- Help is asked for. -/
  | help
  /-- The version is asked for. -/
  | version
  deriving DecidableEq

namespace ArgumentStop

/-- The exit code of the program. -/
def exitCode : ArgumentStop → Nat
  | help | version => 0
  | _ => 2

/-- What is wrong with the command line, in words. -/
def message : ArgumentStop → String
  | missingFile => "error: no program file given"
  | invalidValue => "error: invalid or missing value"
  | unknownArgument => "error: unexpected argument"
  | repeated => "error: option given more than once"
  | unneededValue => "error: option takes no value"
  | help => "usage: corten-bf [OPTIONS] FILE"
  | version => "corten-bf 0.1.0"

end ArgumentStop

/-- The options that take no value. -/
inductive Flag where
  /-- `-v`, `--verbose` -/
  | verbose
  /-- `--trace` -/
  | trace
  /-- `--strict-zeroing` -/
  | strictZeroing
  /-- `--dump-ops` -/
  | dumpOps
  /-- `-h`, `--help` -/
  | help
  /-- `-V`, `--version` -/
  | version
  deriving DecidableEq

/-- The options. -/
inductive Switch where
  /-- `-s`, `--strategy`, which takes a value. -/
  | strategy
  /-- An option without a value. -/
  | flag (flag : Flag)
  deriving DecidableEq

namespace Switch

/-- The option with a long name. -/
def ofLong? (name : String) : Option Switch :=
  match name with
  | "strategy" => some strategy
  | "verbose" => some (flag .verbose)
  | "trace" => some (flag .trace)
  | "strict-zeroing" => some (flag .strictZeroing)
  | "dump-ops" => some (flag .dumpOps)
  | "help" => some (flag .help)
  | "version" => some (flag .version)
  | _ => none

/-- The option with a one-character name. -/
def ofShort? (name : Char) : Option Switch :=
  match name with
  | 's' => some strategy
  | 'v' => some (flag .verbose)
  | 'h' => some (flag .help)
  | 'V' => some (flag .version)
  | _ => none

end Switch

/-- What has been read but not decided yet. -/
inductive Pending where
  /-- A program file. -/
  | file (path : String)
  /-- The option that takes a value, and its value if there is one. -/
  | strategy (value : Option String)
  deriving DecidableEq

/-- What has been read of a command line. -/
structure Reading where
  /-- The program file. -/
  file : Option String := none
  /-- The strategy, if one has been chosen. -/
  strategy : Option Strategy := none
  /-- The flags met so far. -/
  flags : List Flag := []
  /-- What is to be decided. -/
  pending : Option Pending := none
  /-- Whether all further arguments are files. -/
  onlyFiles : Bool := false

namespace Reading

/-- Chooses the strategy with a name. -/
def chooseStrategy (reading : Reading) (name : String) : Except ArgumentStop Reading :=
  if reading.strategy.isSome then .error .repeated
  else
    match Strategy.ofName? name with
    | some strategy => .ok { reading with strategy := some strategy }
    | none => .error .invalidValue

/-- Decides what is pending. -/
def settle (reading : Reading) : Except ArgumentStop Reading :=
  let settled := { reading with pending := none }
  match reading.pending with
  | none => .ok settled
  | some (.file path) =>
    if path.isEmpty then .error .invalidValue else .ok { settled with file := some path }
  | some (.strategy none) => .error .invalidValue
  | some (.strategy (some name)) => settled.chooseStrategy name

/-- Takes a flag. Help and version are given at once. -/
def takeFlag (reading : Reading) (flag : Flag) : Except ArgumentStop Reading := do
  let reading ← reading.settle
  match flag with
  | .help => throw .help
  | .version => throw .version
  | flag =>
    if flag ∈ reading.flags then throw .repeated
    return { reading with flags := flag :: reading.flags }

/-- Takes the option that needs a value, with its value if that is attached to it. -/
def takeStrategy (reading : Reading) (value : Option String) : Except ArgumentStop Reading := do
  let reading ← reading.settle
  match value with
  | some name => reading.chooseStrategy name
  | none => return { reading with pending := some (.strategy none) }

/-- Takes a program file; there can be only one. -/
def takeFile (reading : Reading) (path : String) : Except ArgumentStop Reading :=
  match reading.file, reading.pending with
  | some _, _ | _, some (.file _) => .error .unknownArgument
  | _, _ => do
    let reading ← reading.settle
    return { reading with pending := some (.file path) }

/-- Takes a long option, given without its two dashes. A value may be attached with an equals
sign. -/
def takeLong (reading : Reading) (text : List Char) : Except ArgumentStop Reading :=
  let name := String.ofList (text.takeWhile (· ≠ '='))
  let value := (text.dropWhile (· ≠ '=')).tail?.map String.ofList
  match Switch.ofLong? name, value with
  | none, _ => .error .unknownArgument
  | some .strategy, value => reading.takeStrategy value
  | some (.flag _), some _ => .error .unneededValue
  | some (.flag flag), none => reading.takeFlag flag

/-- Takes short options that are joined, given without their dash. What follows the option that
needs a value is its value, with or without an equals sign. -/
def takeShort (reading : Reading) : List Char → Except ArgumentStop Reading
  | [] => .ok reading
  | name :: rest =>
    match Switch.ofShort? name with
    | none => .error .unknownArgument
    | some (.flag flag) => do (← reading.takeFlag flag).takeShort rest
    | some .strategy =>
      match rest with
      | [] => reading.takeStrategy none
      | '=' :: value => reading.takeStrategy (some (String.ofList value))
      | value => reading.takeStrategy (some (String.ofList value))

/-- Takes one argument. -/
def take (reading : Reading) (argument : String) : Except ArgumentStop Reading :=
  if reading.onlyFiles then reading.takeFile argument
  else
    match argument.toList, reading.pending with
    | ['-', '-'], _ => .ok { reading with onlyFiles := true }
    | '-' :: '-' :: text, _ => reading.takeLong text
    | '-' :: name :: rest, _ => reading.takeShort (name :: rest)
    | _, some (.strategy none) =>
      .ok { reading with pending := some (.strategy (some argument)) }
    | _, _ => reading.takeFile argument

/-- The command line that has been read. -/
def finish (reading : Reading) : Except ArgumentStop Arguments := do
  let reading ← reading.settle
  match reading.file with
  | none => throw .missingFile
  | some file =>
    let settings : Settings :=
      { strategy := reading.strategy.getD .optimized
        verbose := .verbose ∈ reading.flags
        trace := .trace ∈ reading.flags
        strictZeroing := .strictZeroing ∈ reading.flags
        dumpOps := .dumpOps ∈ reading.flags }
    return ⟨file, settings⟩

end Reading

/-- Reads a command line, without the name of the program itself. -/
def Arguments.parse (arguments : List String) : Except ArgumentStop Arguments := do
  (← arguments.foldlM Reading.take {}).finish

end TapeLang

import TapeLang.Interpreter.Bytecode
import TapeLang.Interpreter.Tabled
import TapeLang.Native.Lowering
import TapeLang.Native.Template
import TapeLang.Strategy

/-!
# Executors

An executor runs programs on fresh tapes. Most executors first turn the program into something
else: a jump table, an op stream, or native code. They keep what they made last, and while they
have something they use it for every execution, whatever program the execution names; only a new
preparation replaces it. `Cache` is this discipline, and all executors share it.
-/

namespace TapeLang

variable {α : Type}

/-- Something that is made of a program and kept. -/
structure Cache (α : Type) where
  /-- How it is made. -/
  build : Program → Except Error α
  /-- What was made last. -/
  stored : Option α := none

namespace Cache

/-- Makes it of a program. If that fails, what was made before is kept. -/
def prepare (cache : Cache α) (program : Program) : Except Error Unit × Cache α :=
  match cache.build program with
  | .ok made => (.ok (), { cache with stored := some made })
  | .error error => (.error error, cache)

/-- What was made before, or else what the program gives. -/
def ensure (cache : Cache α) (program : Program) : Except Error α × Cache α :=
  match cache.stored with
  | some made => (.ok made, cache)
  | none =>
    match cache.build program with
    | .ok made => (.ok made, { cache with stored := some made })
    | .error error => (.error error, cache)

/-- Runs what is kept on a machine, after making it of the program if nothing is kept. If it
cannot be made, the machine is left alone. -/
def runOn (cache : Cache α) (run : α → Machine → Outcome Machine) (program : Program)
    (machine : Machine) : Outcome Machine × Cache α :=
  match cache.ensure program with
  | (.ok made, cache) => (run made machine, cache)
  | (.error error, cache) => (.failed error machine, cache)

/-- A preparation that fails changes nothing. -/
theorem prepare_of_error {cache : Cache α} {program : Program} {error : Error}
    (h : cache.build program = .error error) : cache.prepare program = (.error error, cache) := by
  simp [prepare, h]

end Cache

/-- A cache for the jump tables of programs. -/
def Cache.ofJumpTables : Cache JumpTable :=
  { build := Program.resolveJumps }

/-- A cache for the op streams of programs. -/
def Cache.ofStreams (options : CompileOptions) : Cache Stream :=
  { build := Program.compile options }

/-- A cache for native code from templates. -/
def Cache.ofTemplates (options : CompileOptions) (descriptors : Descriptors := {}) :
    Cache TemplateCode :=
  { build := fun program => do
      TemplateCode.generate descriptors (← program.compile options).ops }

/-- A cache for native code from the optimizing code generator. -/
def Cache.ofLowered (options : CompileOptions) (descriptors : Descriptors := {}) :
    Cache LoweredCode :=
  { build := fun program => do
      LoweredCode.generate descriptors (← program.compile options).ops }

/-- An executor with what it keeps. -/
inductive Executor where
  /-- Scans for partners; keeps nothing. -/
  | simple
  /-- Keeps a jump table. -/
  | jumpTable (tables : Cache JumpTable)
  /-- Keeps an op stream. If it traces, it also keeps the profile of the last execution. -/
  | bytecode (options : CompileOptions) (trace : Bool) (streams : Cache Stream)
      (profile : Option Profile)
  /-- Keeps native code from templates. -/
  | templateJit (codes : Cache TemplateCode)
  /-- Keeps native code from the optimizing code generator. -/
  | craneliftJit (codes : Cache LoweredCode)

/-- What an execution came to. -/
structure Execution where
  /-- The executor after it. -/
  executor : Executor
  /-- Its result; `none` if it was cut off. -/
  result : Option (Except Error Unit)
  /-- What the program wrote. -/
  output : Array UInt8
  /-- The profile to be reported, if the execution was traced. -/
  profile : Option Profile

namespace Executor

/-- The op-stream executor. -/
def ofOptions (options : CompileOptions) (trace : Bool := false) : Executor :=
  .bytecode options trace (.ofStreams options) none

/-- The executor for a strategy. -/
def ofStrategy (strategy : Strategy) (options : CompileOptions) (trace : Bool) : Executor :=
  let options := strategy.compileOptions options
  match strategy with
  | .simple => .simple
  | .jumpTable => .jumpTable .ofJumpTables
  | .bytecode | .optimized => .ofOptions options trace
  | .templateJit => .templateJit (.ofTemplates options)
  | .craneliftJit => .craneliftJit (.ofLowered options)

/-- The name of the strategy that the executor follows. -/
def name : Executor → String
  | simple => Strategy.simple.name
  | jumpTable _ => Strategy.jumpTable.name
  | bytecode options .. =>
    if options.specializeLoops then Strategy.optimized.name else Strategy.bytecode.name
  | templateJit _ => Strategy.templateJit.name
  | craneliftJit _ => Strategy.craneliftJit.name

/-- The profile of the last traced execution. -/
def profile? : Executor → Option Profile
  | bytecode _ _ _ profile => profile
  | _ => none

/-- Makes ready to run a program. -/
def prepare (executor : Executor) (program : Program) : Except Error Unit × Executor :=
  match executor with
  | simple => (.ok (), simple)
  | jumpTable tables =>
    let (result, tables) := tables.prepare program
    (result, jumpTable tables)
  | bytecode options trace streams profile =>
    let (result, streams) := streams.prepare program
    (result, bytecode options trace streams profile)
  | templateJit codes =>
    let (result, codes) := codes.prepare program
    (result, templateJit codes)
  | craneliftJit codes =>
    let (result, codes) := codes.prepare program
    (result, craneliftJit codes)

/-- The machine that an execution starts on. -/
def freshMachine (input : Input) : Machine :=
  ⟨.blank, input, .unlimited⟩

/-- The execution with a given outcome. -/
def executed (executor : Executor) (outcome : Outcome Machine) : Execution :=
  { executor
    result := outcome.result?
    output := (outcome.state?.map (·.output.bytes)).getD #[]
    profile := none }

/-- The traced execution with a given outcome, after which the executor is as `after` says. -/
def traced (after : Option Profile → Executor) (outcome : Outcome (Machine × Profile)) :
    Execution :=
  let profile := outcome.state?.map (·.2)
  { executed (after profile) (outcome.map (·.1)) with profile }

/-- Runs a program on a fresh tape with the given input, or what is kept in its place. With a
jump table kept, it is the named program that runs. -/
def execute (executor : Executor) (fuel : Nat) (program : Program) (input : Input) : Execution :=
  let machine := freshMachine input
  match executor with
  | simple => executed simple (Scanning.run program fuel machine)
  | jumpTable tables =>
    let (outcome, tables) :=
      tables.runOn (fun table => Tabled.runWith program table fuel) program machine
    executed (jumpTable tables) outcome
  | bytecode options false streams profile =>
    let (outcome, streams) :=
      streams.runOn (fun stream => Bytecode.run stream.ops fuel) program machine
    executed (bytecode options false streams profile) outcome
  | bytecode options true streams profile =>
    match streams.ensure program with
    | (.ok stream, streams) =>
      traced (bytecode options true streams)
        (Bytecode.runProfiled stream.ops fuel machine .empty)
    | (.error error, streams) =>
      executed (bytecode options true streams profile) (.failed error machine)
  | templateJit codes =>
    let (outcome, codes) := codes.runOn (fun code => code.call fuel) program machine
    executed (templateJit codes) outcome
  | craneliftJit codes =>
    let (outcome, codes) := codes.runOn (fun code => code.call fuel) program machine
    executed (craneliftJit codes) outcome

end Executor

end TapeLang

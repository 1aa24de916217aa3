import TapeLang.Stream.Compile

/-!
# Strategies

The ways to run a program, from walking through it instruction by instruction to native code.
-/

namespace TapeLang

/-- A way to run programs. -/
inductive Strategy where
  /-- Walk through the program and look for partners when they are needed. -/
  | simple
  /-- Walk through the program with a table of partners. -/
  | jumpTable
  /-- Run the op stream, with every loop a pair of jumps. -/
  | bytecode
  /-- Run the op stream, with loops of known effect replaced. -/
  | optimized
  /-- Native code from templates. -/
  | templateJit
  /-- Native code from the optimizing code generator. -/
  | craneliftJit
  deriving DecidableEq

namespace Strategy

/-- Every strategy once. -/
def all : List Strategy :=
  [simple, jumpTable, bytecode, optimized, templateJit, craneliftJit]

/-- The name by which a strategy is chosen. -/
def name : Strategy → String
  | simple => "simple"
  | jumpTable => "jump-table"
  | bytecode => "bytecode"
  | optimized => "optimized"
  | templateJit => "template-jit"
  | craneliftJit => "cranelift-jit"

/-- The name of a strategy in log lines. -/
def label : Strategy → String
  | simple => "Simple"
  | jumpTable => "JumpTable"
  | bytecode => "Bytecode"
  | optimized => "Optimized"
  | templateJit => "TemplateJit"
  | craneliftJit => "CraneliftJit"

/-- The strategy with a name. -/
def ofName? (name : String) : Option Strategy :=
  all.find? (·.name == name)

/-- Whether the strategy runs the op stream itself. -/
def isBytecode : Strategy → Bool
  | bytecode | optimized => true
  | _ => false

/-- How the strategy compiles programs, given how it is asked to. -/
def compileOptions (strategy : Strategy) (options : CompileOptions) : CompileOptions :=
  match strategy with
  | bytecode => { options with specializeLoops := false }
  | _ => options

/-- A strategy has the name by which it is found. -/
theorem ofName?_name (strategy : Strategy) : ofName? strategy.name = some strategy := by
  cases strategy <;> decide

end Strategy

end TapeLang

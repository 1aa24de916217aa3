import TapeLang.Instr

/-!
# Programs

A program is a sequence of instructions. Reading a source text keeps the instructions and drops
all other bytes, so everything after this point deals with the eight instructions only. A run
is a longest stretch of one repeated instruction; `Program.runs` cuts a program into its runs,
with every bracket by itself, and `Program.expand_runs` says that nothing is lost in doing so.
-/

namespace TapeLang

/-- A program: its instructions in order. -/
@[ext]
structure Program where
  /-- The instructions. -/
  instrs : Array Instr
  deriving DecidableEq

namespace Program

/-- The program a source text spells; bytes that spell no instruction are comments. -/
def ofBytes (source : Array UInt8) : Program :=
  ⟨source.filterMap Instr.ofByte?⟩

/-- The number of instructions. -/
def size (program : Program) : Nat :=
  program.instrs.size

/-- The instruction at a position, if there is one. -/
def get? (program : Program) (position : Nat) : Option Instr :=
  program.instrs[position]?

/-- The program as bytes, one for each instruction. -/
def toBytes (program : Program) : Array UInt8 :=
  program.instrs.map Instr.toByte

/-- The program as text, one character for each instruction. -/
def text (program : Program) : String :=
  String.ofList (program.instrs.toList.map Instr.toChar)

/-- A program is the program that its own bytes spell. -/
@[simp]
theorem ofBytes_toBytes (program : Program) : ofBytes program.toBytes = program := by
  ext1
  simp only [ofBytes, toBytes, Array.filterMap_map]
  rw [show (Instr.ofByte? ∘ Instr.toByte) = some from funext Instr.ofByte?_toByte]
  exact Array.filterMap_some

end Program

/-- One instruction written `count` times in a row. -/
structure Run where
  /-- The repeated instruction. -/
  instr : Instr
  /-- How often it stands there. -/
  count : Nat
  deriving DecidableEq

namespace Run

/-- The instructions the run stands for. -/
def expand (run : Run) : List Instr :=
  List.replicate run.count run.instr

/-- Puts an instruction in front of a sequence of runs. It joins the first of them if that
repeats the same instruction; brackets stay alone, since each of them has its own partner. -/
def push (instr : Instr) : List Run → List Run
  | [] => [⟨instr, 1⟩]
  | run :: rest =>
    if run.instr = instr ∧ instr.side = none then ⟨instr, run.count + 1⟩ :: rest
    else ⟨instr, 1⟩ :: run :: rest

/-- Pushing an instruction puts it in front of what the runs stand for. -/
theorem expand_push (instr : Instr) (runs : List Run) :
    (push instr runs).flatMap expand = instr :: runs.flatMap expand := by
  cases runs with
  | nil => rfl
  | cons run rest =>
    by_cases h : run.instr = instr ∧ instr.side = none
    · simp [push, h, expand, List.replicate_succ]
    · simp [push, h, expand]

end Run

namespace Program

/-- The runs of the program, in order. -/
def runs (program : Program) : List Run :=
  program.instrs.toList.foldr Run.push []

/-- The runs stand for the program they were cut from. -/
@[simp]
theorem expand_runs (program : Program) :
    program.runs.flatMap Run.expand = program.instrs.toList := by
  unfold runs
  induction program.instrs.toList with
  | nil => rfl
  | cons instr rest ih => simp [Run.expand_push, ih]

end Program

end TapeLang

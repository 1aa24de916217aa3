import TapeLang.Interpreter.Scanning

/-!
# The jump-table interpreter

Walks through a program instruction by instruction like the scanning interpreter, but takes the
partner of a bracket from a table. The table may belong to another program. Then a jump may lead
anywhere, a position may lie beyond the table, and a bracket may have no entry, in which case the
position to go on at is not a number of the machine.
-/

namespace TapeLang

namespace Tabled

/-- Jumps to the position after the partner that the table gives. -/
def jump (table : JumpTable) (config : Config) : Outcome Config :=
  match table.targets[config.position]? with
  | some (some partner) => .done (config.goTo (partner + 1))
  | some none => .failed .positionOverflow config
  | none => .failed (.lookupPastEnd table.targets.size config.position) config

/-- Carries out the instruction at the current position. -/
def step (table : JumpTable) (instr : Instr) (config : Config) : Outcome Config :=
  match instr with
  | .loopStart => if config.atZero then jump table config else .done config.advance
  | .loopEnd => if config.atZero then .done config.advance else jump table config
  | instr => config.act instr.act

/-- Runs a program with a given table from a configuration until its end. -/
def runFrom (program : Program) (table : JumpTable) (fuel : Nat) (config : Config) :
    Outcome Config :=
  walk (fun config => program.instrs[config.position]?) (step table) fuel config

/-- Runs a program with a given table on a machine. -/
def runWith (program : Program) (table : JumpTable) (fuel : Nat) (machine : Machine) :
    Outcome Machine :=
  (runFrom program table fuel ⟨0, machine⟩).map (·.machine)

/-- Resolves the brackets of a program and runs it with the table. A program whose brackets
cannot be resolved is not begun. -/
def run (program : Program) (fuel : Nat) (machine : Machine) : Outcome Machine :=
  match program.resolveJumps with
  | .ok table => runWith program table fuel machine
  | .error error => .failed error machine

end Tabled

end TapeLang

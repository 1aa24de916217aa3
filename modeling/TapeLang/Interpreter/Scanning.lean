import TapeLang.Interpreter.Config
import TapeLang.JumpTable

/-!
# The scanning interpreter

Walks through a program instruction by instruction and looks for the partner of a bracket when it
has to jump. A bracket without a partner is therefore noticed only if a jump is taken there.
-/

namespace TapeLang

namespace Scanning

/-- Carries out the instruction at the current position. -/
def step (program : Program) (instr : Instr) (config : Config) : Outcome Config :=
  match instr with
  | .loopStart =>
    if config.atZero then
      match program.closeOf config.position with
      | some partner => .done (config.goTo (partner + 1))
      | none => .failed (.unmatchedBracket '[' config.position) config
    else .done config.advance
  | .loopEnd =>
    if config.atZero then .done config.advance
    else
      match program.openOf config.position with
      | some partner => .done (config.goTo (partner + 1))
      | none => .failed (.unmatchedBracket ']' config.position) config
  | instr => config.act instr.act

/-- Runs a program from a configuration until its end. -/
def runFrom (program : Program) (fuel : Nat) (config : Config) : Outcome Config :=
  walk (fun config => program.instrs[config.position]?) (step program) fuel config

/-- Runs a program on a machine. -/
def run (program : Program) (fuel : Nat) (machine : Machine) : Outcome Machine :=
  (runFrom program fuel ⟨0, machine⟩).map (·.machine)

end Scanning

end TapeLang

import Mathlib
import TapeLang.Interpreter.Tabled
import TapeLang.Proofs.Resolution
import TapeLang.Proofs.Source

/-!
# Running with a table

The table of a program gives for each of its brackets the partner that a scan finds, so that the
interpreter that looks partners up and the one that scans for them take the same steps.

* `Tabled.step_eq`: a step with the table of a program is a step with scans.
* `Program.tabled_eq_scanning`: the two interpreters go through the same configurations.
-/

namespace TapeLang

/-- The configurations in which the jump-table interpreter carries out an instruction, in order. -/
def Tabled.trailFrom (program : Program) (table : JumpTable) (fuel : Nat) (config : Config) :
    List Config :=
  trail (fun config => program.instrs[config.position]?) (step table) fuel config

variable {program : Program} {table : JumpTable}

/-- Every bracket of a program that is resolved has its partner as its entry. -/
theorem JumpTable.exists_entry (h : program.resolveJumps = .ok table) {position : Nat}
    (hbracket : program.BracketAt position) :
    ∃ partner, table.targets[position]? = some (some partner) ∧
      program.partner? position = some partner := by
  obtain ⟨-, hpaired⟩ := Program.resolves_of_resolveJumps h
  obtain ⟨partner, hpartner⟩ := Program.paired_iff_partner?.mp (hpaired position hbracket)
  have htarget : table.target? position = some partner :=
    (Program.target?_of_resolveJumps h position).trans hpartner
  exact ⟨partner, Option.join_eq_some_iff.mp htarget, hpartner⟩

namespace Tabled

/-- A jump with the entry of a bracket leads behind the partner. -/
theorem jump_of_entry {config : Config} {partner : Nat}
    (h : table.targets[config.position]? = some (some partner)) :
    jump table config = .done (config.goTo (partner + 1)) := by
  simp only [jump, h]

/-- A step with the table of a program is a step with scans. -/
theorem step_eq (h : program.resolveJumps = .ok table) {config : Config} {instr : Instr}
    (hget : program.instrs[config.position]? = some instr) :
    step table instr config = Scanning.step program instr config := by
  have hget' : program.get? config.position = some instr := hget
  have hbracket : instr.side ≠ none → program.BracketAt config.position :=
    Program.bracketAt_of_get hget'
  cases instr with
  -- at a bracket the entry is what the scan finds, so that both jump or neither does
  | loopStart =>
    obtain ⟨partner, hentry, hpartner⟩ := JumpTable.exists_entry h (hbracket (by simp [Instr.side]))
    have hclose : program.closeOf config.position = some partner := by
      simpa only [Program.partner?, hget'] using hpartner
    simp only [step, Scanning.step, jump_of_entry hentry, hclose]
  | loopEnd =>
    obtain ⟨partner, hentry, hpartner⟩ := JumpTable.exists_entry h (hbracket (by simp [Instr.side]))
    have hopen : program.openOf config.position = some partner := by
      simpa only [Program.partner?, hget'] using hpartner
    simp only [step, Scanning.step, jump_of_entry hentry, hopen]
  | right => rfl
  | left => rfl
  | increment => rfl
  | decrement => rfl
  | write => rfl
  | read => rfl

/-- A run with the table of a program is a run with scans. -/
theorem runFrom_eq (h : program.resolveJumps = .ok table) (fuel : Nat) (config : Config) :
    runFrom program table fuel config = Scanning.runFrom program fuel config ∧
      trailFrom program table fuel config = Scanning.trailFrom program fuel config := by
  refine walk_congr (fun state instr hget => ?_) fuel config
  exact step_eq h hget

end Tabled

namespace Program

/-- On a program that can be resolved the jump-table interpreter goes through the same
configurations as the scanning interpreter, with any fuel, and ends in the same way; each bracket
has an entry in the table. A program that cannot be resolved leaves the machine as it is. -/
theorem tabled_eq_scanning (program : Program) :
    (∀ table, program.resolveJumps = .ok table →
      (∀ position instr, program.get? position = some instr → instr.side ≠ none →
        ∃ partner, table.targets[position]? = some (some partner)) ∧
      ∀ fuel machine,
        Tabled.trailFrom program table fuel ⟨0, machine⟩ =
          Scanning.trailFrom program fuel ⟨0, machine⟩ ∧
        Tabled.runFrom program table fuel ⟨0, machine⟩ =
          Scanning.runFrom program fuel ⟨0, machine⟩ ∧
        Tabled.run program fuel machine = Scanning.run program fuel machine) ∧
    ∀ error, program.resolveJumps = .error error → ∀ fuel machine,
      Tabled.run program fuel machine = .failed error machine := by
  constructor
  · intro table htable
    refine ⟨fun position instr hget hside => ?_, fun fuel machine => ?_⟩
    · obtain ⟨partner, hentry, -⟩ := JumpTable.exists_entry htable (bracketAt_of_get hget hside)
      exact ⟨partner, hentry⟩
    · obtain ⟨hruns, htrails⟩ := Tabled.runFrom_eq htable fuel ⟨0, machine⟩
      refine ⟨htrails, hruns, ?_⟩
      rw [Tabled.run, htable]
      exact congrArg (·.map (·.machine)) hruns
  · intro error herror fuel machine
    rw [Tabled.run, herror]

/-- The program that copies its input up to a zero, and a program with a loop that never ends. -/
theorem tabled_eq_scanning_echo :
    (∃ table, Program.resolveJumps ⟨#[.read, .loopStart, .write, .read, .loopEnd]⟩ = .ok table ∧
      table.targets[4]? = some (some 1) ∧
      ∀ fuel machine,
        Tabled.runFrom ⟨#[.read, .loopStart, .write, .read, .loopEnd]⟩ table fuel ⟨0, machine⟩ =
          Scanning.runFrom ⟨#[.read, .loopStart, .write, .read, .loopEnd]⟩ fuel ⟨0, machine⟩) ∧
    ∀ fuel machine, Tabled.run ⟨#[.write, .loopStart]⟩ fuel machine =
      .failed (.unmatchedBracket '[' 1) machine := by
  have hecho : Program.resolveJumps ⟨#[.read, .loopStart, .write, .read, .loopEnd]⟩ =
      .ok ⟨#[none, some 4, none, none, some 1], #[(1, 4)]⟩ := by cbv
  have hopen : Program.resolveJumps ⟨#[.write, .loopStart]⟩ =
      .error (.unmatchedBracket '[' 1) := by cbv
  obtain ⟨-, hruns⟩ := (tabled_eq_scanning _).1 _ hecho
  exact ⟨⟨_, hecho, rfl, fun fuel machine => (hruns fuel machine).2.1⟩,
    (tabled_eq_scanning _).2 _ hopen⟩

end Program

end TapeLang

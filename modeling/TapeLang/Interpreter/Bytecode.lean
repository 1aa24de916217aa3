import TapeLang.Interpreter.Config
import TapeLang.Interpreter.Profile
import TapeLang.Stream

/-!
# The op-stream interpreter

Runs the ops of a stream. A jump that is taken leads to the op after its target, so that a loop
start goes on behind the loop end and a loop end goes on with the body. Targets are not trusted:
one that is not in the stream is an error if the jump is taken. A run may be observed; what an
observer collects, such as a `Profile`, has no influence on the run.
-/

namespace TapeLang

namespace Bytecode

/-- Jumps to the op after the target in a stream of `size` ops. -/
def jump (size target : Nat) (config : Config) : Outcome Config :=
  if target < size then .done (config.goTo (target + 1))
  else .failed (.stream (.jumpOutside config.position target size)) config

/-- Carries out the op at the current position in a stream of `size` ops. -/
def step (size : Nat) (op : Op) (config : Config) : Outcome Config :=
  match op with
  | .jumpIfZero target => if config.atZero then jump size target config else .done config.advance
  | .jumpIfNotZero target =>
    if config.atZero then .done config.advance else jump size target config
  | op => config.act op.act

/-- Runs ops from a configuration until their end. -/
def runFrom (ops : Array Op) (fuel : Nat) (config : Config) : Outcome Config :=
  walk (fun config => ops[config.position]?) (step ops.size) fuel config

/-- Runs ops on a machine. -/
def run (ops : Array Op) (fuel : Nat) (machine : Machine) : Outcome Machine :=
  (runFrom ops fuel ⟨0, machine⟩).map (·.machine)

variable {π : Type}

/-- Carries out an op after it was shown to the observer. -/
@[inline]
def observedStep (observe : π → Op → π) (size : Nat) (op : Op) (state : Config × π) :
    Outcome (Config × π) :=
  match state with
  | (config, seen) =>
    let seen := observe seen op
    (step size op config).map fun config => (config, seen)

/-- Runs ops from a configuration, showing each op to an observer before it is carried out. -/
@[specialize]
def runObserved (observe : π → Op → π) (ops : Array Op) (fuel : Nat) (state : Config × π) :
    Outcome (Config × π) :=
  walk (fun state => ops[state.1.position]?) (observedStep observe ops.size) fuel state

/-- Runs ops on a machine and adds what is executed to a profile. -/
def runProfiled (ops : Array Op) (fuel : Nat) (machine : Machine) (profile : Profile) :
    Outcome (Machine × Profile) :=
  (runObserved Profile.record ops fuel (⟨0, machine⟩, profile)).map fun state =>
    (state.1.machine, state.2)

/-- An observed run does what the run does when nobody looks. -/
theorem map_runObserved (observe : π → Op → π) (ops : Array Op) (fuel : Nat) (config : Config)
    (seen : π) :
    (runObserved observe ops fuel (config, seen)).map (·.1) = runFrom ops fuel config := by
  unfold runObserved runFrom
  induction fuel generalizing config seen with
  | zero => rfl
  | succ fuel ih =>
    rw [walk_succ, walk_succ]
    cases ops[config.position]? with
    | none => rfl
    | some op =>
      simp only [observedStep]
      cases step ops.size op config with
      | done next => exact ih next _
      | failed error next => rfl
      | unfinished => rfl

end Bytecode

end TapeLang

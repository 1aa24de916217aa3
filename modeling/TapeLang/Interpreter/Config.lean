import TapeLang.Machine

/-!
# Configurations

An interpreter keeps a machine and the position at which it goes on. The same configurations serve
programs, where positions number instructions, and streams, where they number ops.
-/

namespace TapeLang

/-- A machine and the position at which its program goes on. -/
@[ext]
structure Config where
  /-- The position of the next instruction or op. -/
  position : Nat
  /-- The machine. -/
  machine : Machine

namespace Config

/-- Whether the current cell is zero. -/
def atZero (config : Config) : Bool :=
  config.machine.tape.current = 0

/-- The same machine at another position. -/
def goTo (config : Config) (position : Nat) : Config :=
  match config with
  | ⟨_, machine⟩ => ⟨position, machine⟩

/-- Goes on to the next position. -/
def advance (config : Config) : Config :=
  match config with
  | ⟨position, machine⟩ => ⟨position + 1, machine⟩

/-- Changes the machine and goes on to the next position; an error stays where it arises. -/
@[inline]
def act (config : Config) (action : Machine → Outcome Machine) : Outcome Config :=
  match config with
  | ⟨position, machine⟩ =>
    match action machine with
    | .done machine => .done ⟨position + 1, machine⟩
    | .failed error machine => .failed error ⟨position, machine⟩
    | .unfinished => .unfinished

end Config

end TapeLang

import TapeLang.Block
import TapeLang.Machine

/-!
# Structured code

Native code follows the nesting of the loops of a stream and takes no notice of the targets of
its jumps. `Block.ofOps` finds the nesting, and `Block.exec` says what a block does: a loop repeats
its body until the current cell is zero when a round begins.
-/

namespace TapeLang

variable {α : Type}

/-- The descriptors that native code reads from and writes to. -/
structure Descriptors where
  /-- Where bytes are read from. -/
  input : Int := 0
  /-- Where bytes are written to. -/
  output : Int := 1
  deriving DecidableEq

/-- Whether a descriptor names an open file; negative numbers name none. -/
def Descriptors.usable (descriptor : Int) : Bool :=
  0 ≤ descriptor

/-- The nesting of ops whose jumps are properly nested. -/
def Block.ofOps (ops : Array Op) : Option (Block Op) :=
  Block.ofItems? Op.side ops.toList

namespace Machine

/-- Writes the current cell to a descriptor. Errors are not noticed. -/
def writeTo (descriptor : Int) (machine : Machine) : Machine :=
  if Descriptors.usable descriptor then
    match machine with
    | ⟨tape, input, output⟩ =>
      match output.write tape.current with
      | .ok output => ⟨tape, input, output⟩
      | .error _ => ⟨tape, input, output⟩
  else machine

/-- Reads a byte from a descriptor into the current cell. Errors are not noticed; then, and at
the end of the input, the cell keeps its value. -/
def readFrom (descriptor : Int) (machine : Machine) : Machine :=
  if Descriptors.usable descriptor then
    match machine with
    | ⟨tape, input, output⟩ =>
      match input.read with
      | (.ok (some byte), input) => ⟨tape.setCurrent byte, input, output⟩
      | (_, input) => ⟨tape, input, output⟩
  else machine

end Machine

/-- What an op does in native code: as elsewhere, but with descriptors in the place of input and
output. -/
def Op.actNative (descriptors : Descriptors) (op : Op) (machine : Machine) : Outcome Machine :=
  match op with
  | .write count =>
    Outcome.iterate (fun machine => .done (machine.writeTo descriptors.output)) count machine
  | .read count =>
    Outcome.iterate (fun machine => .done (machine.readFrom descriptors.input)) count machine
  | op => op.act machine

namespace Block

/-- Executes a block whose items do what `act` says. The fuel bounds how many items and rounds
follow one another. -/
@[specialize]
def exec (act : α → Machine → Outcome Machine) : Nat → Block α → Machine → Outcome Machine
  | 0, _, _ => .unfinished
  | _ + 1, .done, machine => .done machine
  | fuel + 1, .op item rest, machine => (act item machine).bind (exec act fuel rest)
  | fuel + 1, .loop body rest, machine =>
    if machine.tape.current = 0 then exec act fuel rest machine
    else (exec act fuel body machine).bind (exec act fuel (.loop body rest))

/-- Calls native code on a machine. The code starts at the first cell. Where it ends, the data
pointer of the tape is put; if it fails, the cells are as it left them, but the data pointer
stays where it was before the call. -/
def call (descriptors : Descriptors) (fuel : Nat) (block : Block Op) (machine : Machine) :
    Outcome Machine :=
  let pointer := machine.tape.pointer
  let start := machine.mapTape ({ · with pointer := Tape.origin })
  match block.exec (Op.actNative descriptors) fuel start with
  | .done machine => .done machine
  | .failed error machine => .failed error (machine.mapTape ({ · with pointer }))
  | .unfinished => .unfinished

end Block

end TapeLang

import TapeLang.Channel
import TapeLang.Op
import TapeLang.Tape

/-!
# The machine

A machine is a tape with an input and an output. `Instr.act` and `Op.act` say what instructions
and ops do to it; choosing where to go on is not their business, so brackets and jumps do nothing
here.
-/

namespace TapeLang

/-- What a program works on. -/
@[ext]
structure Machine where
  /-- The tape. -/
  tape : Tape
  /-- Where bytes are read from. -/
  input : Input
  /-- Where bytes are written to. -/
  output : Output

namespace Machine

/-- Changes the tape. -/
@[inline]
def onTape (machine : Machine) (action : Tape → Outcome Tape) : Outcome Machine :=
  match machine with
  | ⟨tape, input, output⟩ => (action tape).map fun tape => ⟨tape, input, output⟩

/-- Changes the tape in a way that cannot fail. -/
@[inline]
def mapTape (machine : Machine) (change : Tape → Tape) : Machine :=
  match machine with
  | ⟨tape, input, output⟩ => ⟨change tape, input, output⟩

/-- Moves the data pointer. -/
def moveBy (machine : Machine) (delta : Int) : Outcome Machine :=
  machine.onTape (·.moveBy delta)

/-- Writes the current cell. -/
def write (machine : Machine) : Outcome Machine :=
  match machine with
  | ⟨tape, input, output⟩ =>
    match output.write tape.current with
    | .ok output => .done ⟨tape, input, output⟩
    | .error error => .failed error ⟨tape, input, output⟩

/-- Reads a byte into the current cell; at the end of the input the cell keeps its value. -/
def read (machine : Machine) : Outcome Machine :=
  match machine with
  | ⟨tape, input, output⟩ =>
    match input.read with
    | (.ok (some byte), input) => .done ⟨tape.setCurrent byte, input, output⟩
    | (.ok none, input) => .done ⟨tape, input, output⟩
    | (.error error, input) => .failed error ⟨tape, input, output⟩

end Machine

/-- What an instruction does to the machine. -/
def Instr.act (instr : Instr) (machine : Machine) : Outcome Machine :=
  match instr with
  | .right => machine.moveBy 1
  | .left => machine.moveBy (-1)
  | .increment => .done (machine.mapTape (·.addCurrent 1))
  | .decrement => .done (machine.mapTape (·.subCurrent 1))
  | .write => machine.write
  | .read => machine.read
  | .loopStart | .loopEnd => .done machine

/-- What an op does to the machine. The counts of moves are seen as signed words, those of
additions and subtractions modulo 256. -/
def Op.act (op : Op) (machine : Machine) : Outcome Machine :=
  match op with
  | .forward count => machine.moveBy (signedWord count)
  | .backward count => machine.moveBy (-signedWord count)
  | .add count => .done (machine.mapTape (·.addCurrent (UInt8.ofNat count)))
  | .sub count => .done (machine.mapTape (·.subCurrent (UInt8.ofNat count)))
  | .write count => Outcome.iterate Machine.write count machine
  | .read count => Outcome.iterate Machine.read count machine
  | .setZero => .done (machine.mapTape (·.setCurrent 0))
  | .scanUntilZero step => machine.onTape (·.scanUntilZero step)
  | .transferAndZero delta => machine.onTape (·.transferAndZero delta)
  | .jumpIfZero _ | .jumpIfNotZero _ => .done machine

end TapeLang

/-!
# The instruction alphabet

A program is written with eight characters; every other byte of a source text is a comment.
`Instr.ofByte?` reads a byte and `Instr.toByte` writes it back, so that
`Instr.ofByte?_eq_some_iff` says that each instruction has exactly one spelling.
-/

namespace TapeLang

/-- The two sides of a loop. -/
inductive Bracket where
  /-- The start of a loop. -/
  | opening
  /-- The end of a loop. -/
  | closing
  deriving DecidableEq

/-- An instruction of the tape language. -/
inductive Instr where
  /-- Move the data pointer one cell to the right. -/
  | right
  /-- Move the data pointer one cell to the left. -/
  | left
  /-- Add one to the current cell. -/
  | increment
  /-- Subtract one from the current cell. -/
  | decrement
  /-- Write the current cell as one byte. -/
  | write
  /-- Read one byte into the current cell. -/
  | read
  /-- Start of a loop: skip it if the current cell is zero. -/
  | loopStart
  /-- End of a loop: repeat it unless the current cell is zero. -/
  | loopEnd
  deriving DecidableEq

namespace Instr

/-- Every instruction once. -/
def all : List Instr :=
  [right, left, increment, decrement, write, read, loopStart, loopEnd]

/-- The character that spells the instruction. -/
def toChar : Instr → Char
  | right => '>'
  | left => '<'
  | increment => '+'
  | decrement => '-'
  | write => '.'
  | read => ','
  | loopStart => '['
  | loopEnd => ']'

/-- The byte that spells the instruction. -/
def toByte : Instr → UInt8
  | right => 62
  | left => 60
  | increment => 43
  | decrement => 45
  | write => 46
  | read => 44
  | loopStart => 91
  | loopEnd => 93

/-- The instruction a byte spells, if any. -/
def ofByte? (byte : UInt8) : Option Instr :=
  if byte = 62 then some right
  else if byte = 60 then some left
  else if byte = 43 then some increment
  else if byte = 45 then some decrement
  else if byte = 46 then some write
  else if byte = 44 then some read
  else if byte = 91 then some loopStart
  else if byte = 93 then some loopEnd
  else none

/-- The side of a loop that the instruction stands on, if any. -/
def side : Instr → Option Bracket
  | loopStart => some .opening
  | loopEnd => some .closing
  | _ => none

/-- Every instruction is listed. -/
theorem mem_all (instr : Instr) : instr ∈ all := by
  cases instr <;> decide

/-- The byte of an instruction is the code of its character. -/
theorem toByte_eq (instr : Instr) : instr.toByte.toNat = instr.toChar.toNat := by
  cases instr <;> rfl

/-- Reading the spelling of an instruction gives the instruction. -/
@[simp]
theorem ofByte?_toByte (instr : Instr) : ofByte? instr.toByte = some instr := by
  cases instr <;> rfl

/-- A byte spells an instruction only if it is that instruction's own byte. -/
theorem ofByte?_eq_some_iff {byte : UInt8} {instr : Instr} :
    ofByte? byte = some instr ↔ byte = instr.toByte := by
  constructor
  · intro h
    unfold ofByte? at h
    repeat' split at h
    all_goals first | contradiction | (cases h; assumption)
  · rintro rfl
    exact ofByte?_toByte instr

end Instr

/-- Whether a byte of a source text spells an instruction. -/
def isOpcode (byte : UInt8) : Bool :=
  (Instr.ofByte? byte).isSome

end TapeLang

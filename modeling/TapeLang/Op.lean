import TapeLang.Instr

/-!
# Ops

An op is one step of the optimized form of a program. Ops that come from a run of equal
instructions carry the length of the run; jumps carry the index of their partner; the ops that
stand for a whole loop carry a signed displacement. Counts are natural numbers; where a machine
works with a count it sees the signed 64-bit word with the same low bits, `signedWord`.
-/

namespace TapeLang

/-- The signed 64-bit number with the same low 64 bits as `n`. -/
def signedWord (n : Int) : Int :=
  if n.natAbs < 0x8000000000000000 then n else Int.bmod n 0x10000000000000000

/-- Taking the signed word is the balanced remainder modulo `2 ^ 64`. -/
theorem signedWord_eq_bmod (n : Int) : signedWord n = Int.bmod n 0x10000000000000000 := by
  unfold signedWord
  split
  · rw [Int.bmod_def]
    omega
  · rfl

/-- One op of a stream. -/
inductive Op where
  /-- Move the data pointer to the right by the count. -/
  | forward (count : Nat)
  /-- Move the data pointer to the left by the count. -/
  | backward (count : Nat)
  /-- Add the count to the current cell. -/
  | add (count : Nat)
  /-- Subtract the count from the current cell. -/
  | sub (count : Nat)
  /-- Write the current cell, as often as the count says. -/
  | write (count : Nat)
  /-- Read a byte into the current cell, as often as the count says. -/
  | read (count : Nat)
  /-- Go on after the op at `target` if the current cell is zero. -/
  | jumpIfZero (target : Nat)
  /-- Go on after the op at `target` unless the current cell is zero. -/
  | jumpIfNotZero (target : Nat)
  /-- Set the current cell to zero. -/
  | setZero
  /-- Move the data pointer by `step` until the current cell is zero. -/
  | scanUntilZero (step : Int)
  /-- Add the current cell to the cell at `offset` from it, then set it to zero. -/
  | transferAndZero (offset : Int)
  deriving DecidableEq

namespace Op

/-- What an op does, apart from its argument. -/
inductive Kind where
  /-- The kind of `Op.forward`. -/
  | forward
  /-- The kind of `Op.backward`. -/
  | backward
  /-- The kind of `Op.add`. -/
  | add
  /-- The kind of `Op.sub`. -/
  | sub
  /-- The kind of `Op.write`. -/
  | write
  /-- The kind of `Op.read`. -/
  | read
  /-- The kind of `Op.jumpIfZero`. -/
  | jumpIfZero
  /-- The kind of `Op.jumpIfNotZero`. -/
  | jumpIfNotZero
  /-- The kind of `Op.setZero`. -/
  | setZero
  /-- The kind of `Op.scanUntilZero`. -/
  | scanUntilZero
  /-- The kind of `Op.transferAndZero`. -/
  | transferAndZero
  deriving DecidableEq

namespace Kind

/-- Every kind once, in the order in which profiles list them. -/
def all : List Kind :=
  [forward, backward, add, sub, write, read, jumpIfZero, jumpIfNotZero, setZero, scanUntilZero,
    transferAndZero]

/-- The place of the kind in `Kind.all`. -/
def index : Kind → Fin 11
  | forward => 0
  | backward => 1
  | add => 2
  | sub => 3
  | write => 4
  | read => 5
  | jumpIfZero => 6
  | jumpIfNotZero => 7
  | setZero => 8
  | scanUntilZero => 9
  | transferAndZero => 10

/-- The name of the kind in listings and profiles. -/
def name : Kind → String
  | forward => "MOVE_PTR_FORWARD"
  | backward => "MOVE_PTR_BACKWARD"
  | add => "ADD_DATA"
  | sub => "SUB_DATA"
  | write => "WRITE"
  | read => "READ"
  | jumpIfZero => "JUMP_IF_ZERO"
  | jumpIfNotZero => "JUMP_IF_NOT_ZERO"
  | setZero => "SET_ZERO"
  | scanUntilZero => "SCAN_UNTIL_ZERO"
  | transferAndZero => "TRANSFER_AND_ZERO"

/-- The character that stands for the kind in traces. The kinds that replace a whole loop come
from no single instruction and share a question mark. -/
def symbol : Kind → Char
  | forward => '>'
  | backward => '<'
  | add => '+'
  | sub => '-'
  | write => '.'
  | read => ','
  | jumpIfZero => '['
  | jumpIfNotZero => ']'
  | setZero | scanUntilZero | transferAndZero => '?'

/-- The kind of the op that a run of this instruction becomes; brackets form no runs. -/
def ofInstr? : Instr → Option Kind
  | .right => some forward
  | .left => some backward
  | .increment => some add
  | .decrement => some sub
  | .write => some write
  | .read => some read
  | .loopStart | .loopEnd => none

/-- The op of this kind with the given count, for the kinds that carry one. -/
def withCount (kind : Kind) (count : Nat) : Option Op :=
  match kind with
  | forward => some (.forward count)
  | backward => some (.backward count)
  | add => some (.add count)
  | sub => some (.sub count)
  | write => some (.write count)
  | read => some (.read count)
  | _ => none

/-- A kind stands at its index in the list of all kinds. -/
theorem all_index (kind : Kind) : all[kind.index]? = some kind := by
  cases kind <;> rfl

/-- Two kinds with the same index are equal. -/
theorem index_inj {kind other : Kind} : kind.index = other.index ↔ kind = other := by
  cases kind <;> cases other <;> decide

end Kind

/-- What the op does, apart from its argument. -/
def kind : Op → Kind
  | forward _ => .forward
  | backward _ => .backward
  | add _ => .add
  | sub _ => .sub
  | write _ => .write
  | read _ => .read
  | jumpIfZero _ => .jumpIfZero
  | jumpIfNotZero _ => .jumpIfNotZero
  | setZero => .setZero
  | scanUntilZero _ => .scanUntilZero
  | transferAndZero _ => .transferAndZero

/-- The argument as a signed word; zero for the op that has none. -/
def argument : Op → Int
  | forward n | backward n | add n | sub n | write n | read n => signedWord n
  | jumpIfZero target | jumpIfNotZero target => signedWord target
  | setZero => 0
  | scanUntilZero d | transferAndZero d => d

/-- By how much a move op moves the data pointer. -/
def pointerDelta? : Op → Option Int
  | forward n => some (signedWord n)
  | backward n => some (signedWord (-signedWord n))
  | _ => none

/-- The side of a loop that the op stands on, if any. -/
def side : Op → Option Bracket
  | jumpIfZero _ => some .opening
  | jumpIfNotZero _ => some .closing
  | _ => none

/-- Whether the op is a jump. -/
def isJump (op : Op) : Bool :=
  op.side.isSome

/-- Whether the op stands for a whole loop. -/
def isSpecialized : Op → Bool
  | setZero | scanUntilZero _ | transferAndZero _ => true
  | _ => false

/-- The op as it is listed. -/
def text : Op → String
  | setZero => Kind.setZero.name
  | op => s!"{op.kind.name}({op.argument})"

/-- The op with a count has the kind it was made of. -/
theorem kind_of_withCount {kind : Kind} {count : Nat} {op : Op}
    (h : kind.withCount count = some op) : op.kind = kind := by
  cases kind <;> simp [Kind.withCount] at h <;> subst h <;> rfl

end Op

end TapeLang

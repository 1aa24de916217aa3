import TapeLang.Native.Block
import TapeLang.Native.CodeBuffer

/-!
# The template code generator

Each op becomes a fixed sequence of machine instructions. Branches lead to labels. A branch to a
label that already has a place gets its displacement at once; any other is emitted with a
placeholder, and a fixup remembers it until all labels have their places. Generated code is laid
out as prologue, ops, exit (the epilogue, which gives back `rbx`) and fault (which takes the index
of an impossible transfer from `rcx` to `rbx` and leaves through the exit).
-/

namespace TapeLang

/-- A place in the code that branches lead to, numbered in the order in which labels are made. -/
structure Label where
  /-- The number of the label. -/
  index : Nat
  deriving DecidableEq

/-- A branch field that waits for the place of its label. -/
structure Fixup where
  /-- The offset of the field. -/
  offset : Nat
  /-- The label that the branch leads to. -/
  label : Label
  deriving DecidableEq

/-- Code that is being generated. -/
structure Emitter where
  /-- The code so far. -/
  buffer : CodeBuffer
  /-- For each label the offset it stands for, once it has a place. -/
  places : Array (Option Nat)
  /-- The branches that wait, in the order in which they were emitted. -/
  fixups : Array Fixup
  /-- The open loops, innermost first: the label of the body and the label behind the loop. -/
  loops : List (Label × Label)

/-- A step of code generation. -/
abbrev Emit := StateT Emitter (Except CodegenError)

namespace Emit

/-- The label of the exit. -/
def exit : Label := ⟨0⟩

/-- The label of the part that reports an impossible transfer. -/
def fault : Label := ⟨1⟩

/-- The state before anything is emitted: exit and fault have labels, but no places. -/
def start : Emitter := ⟨.empty, #[none, none], #[], []⟩

/-- Emits machine instructions. -/
def insns (list : List X86.Insn) : Emit Unit :=
  modify fun emitter => { emitter with buffer := emitter.buffer.emit (X86.assemble list) }

/-- Makes a label that has no place yet. -/
def newLabel : Emit Label :=
  modifyGet fun emitter =>
    (⟨emitter.places.size⟩, { emitter with places := emitter.places.push none })

/-- Gives a label its place: the offset of the next instruction. -/
def bind (label : Label) : Emit Unit := do
  let emitter ← get
  match emitter.places[label.index]? with
  | none => throw (.unknownLabel label.index)
  | some (some _) => throw (.labelBoundTwice label.index)
  | some none =>
    set { emitter with
      places := emitter.places.setIfInBounds label.index (some emitter.buffer.size) }

/-- Emits the field of a branch to a label. -/
def field (label : Label) : Emit Unit := do
  let emitter ← get
  let offset := emitter.buffer.size
  match emitter.places[label.index]?.join with
  | some target =>
    let displacement ← branchDisplacement (offset + 4) target
    set { emitter with buffer := emitter.buffer.emitWord displacement }
  | none =>
    set { emitter with
      buffer := emitter.buffer.emitWord 0
      fixups := emitter.fixups.push ⟨offset, label⟩ }

/-- Emits a branch to a label. -/
def branch (condition : X86.Branch) (label : Label) : Emit Unit := do
  modify fun emitter => { emitter with buffer := emitter.buffer.emit condition.opcode }
  field label

/-- Notes an open loop. -/
def pushLoop (body behind : Label) : Emit Unit :=
  modify fun emitter => { emitter with loops := (body, behind) :: emitter.loops }

/-- Takes the innermost open loop. -/
def popLoop : Emit (Label × Label) := do
  let emitter ← get
  match emitter.loops with
  | [] => throw .unmatchedClose
  | loop :: outer =>
    set { emitter with loops := outer }
    return loop

/-- A count as the operand of a move, which must be a signed 64-bit number. -/
def moveCount (count : Nat) : Emit Int :=
  if count < 0x8000000000000000 then return count else throw (.countTooLarge count)

/-- The operand for a distance, which must fit a signed 32-bit immediate. -/
def immediate (distance : Nat) : Emit UInt32 :=
  if distance < 0x80000000 then return UInt32.ofNat distance else throw (.immediateTooWide distance)

/-- Adds a displacement, given by its sign and operand, to an index register and leaves for
`outside` unless the result is an index of the tape. As the comparison is unsigned, it also finds
indices below zero. -/
def shift (register : X86.IndexRegister) (delta : Int) (operand : UInt32) (outside : Label) :
    Emit Unit := do
  insns
    [.index (if 0 ≤ delta then .add else .sub) register operand,
      .index .cmp register (UInt32.ofNat tapeSize)]
  branch .jae outside

/-- Moves the data pointer. -/
def movePointer (delta : Int) : Emit Unit := do
  let operand ← immediate delta.natAbs
  shift .rbx delta operand exit

/-- Makes a system call on the current cell, again and again. -/
def cellSyscalls (call : X86.SystemCall) (descriptor : Int) (count : Nat) : Emit Unit :=
  insns (List.replicate count
    (X86.cellSyscall call.number (UInt32.ofInt descriptor))).flatten

/-- Emits the code of one op. -/
def op (descriptors : Descriptors) : Op → Emit Unit
  | .forward count => do movePointer (← moveCount count)
  | .backward count => do movePointer (-(← moveCount count))
  | .add count =>
    let amount := UInt8.ofNat count
    insns (if amount = 0 then [] else [.addCell amount])
  | .sub count =>
    let amount := UInt8.ofNat count
    insns (if amount = 0 then [] else [.subCell amount])
  | .write count => cellSyscalls .write descriptors.output count
  | .read count => cellSyscalls .read descriptors.input count
  | .jumpIfZero _ => do
    let behind ← newLabel
    insns [.cmpCellZero]
    -- the branch waits until the loop has ended
    branch .jz behind
    let body ← newLabel
    bind body
    pushLoop body behind
  | .jumpIfNotZero _ => do
    let (body, behind) ← popLoop
    insns [.cmpCellZero]
    branch .jnz body
    bind behind
  | .setZero => insns [.setCellZero]
  | .scanUntilZero step => do
    let head ← newLabel
    let found ← newLabel
    bind head
    insns [.cmpCellZero]
    branch .jz found
    movePointer step
    branch .jmp head
    bind found
  | .transferAndZero delta => do
    let behind ← newLabel
    let operand ← immediate delta.natAbs
    insns [.cmpCellZero]
    branch .jz behind
    -- the index of the target is found in `rcx`; `rbx` goes on standing at the current cell
    insns [.movRcxRbx]
    shift .rcx delta operand fault
    insns [.movAlCell, .addTargetAl, .setCellZero]
    bind behind

/-- Fills in the field of a branch that waited for its label. -/
def resolve (places : Array (Option Nat)) (buffer : CodeBuffer) (fixup : Fixup) :
    Except CodegenError CodeBuffer :=
  match places[fixup.label.index]?.join with
  | none => .error (.unboundLabel fixup.offset fixup.label.index)
  | some target => do
    buffer.patchWord fixup.offset (← branchDisplacement (fixup.offset + 4) target)

/-- The code with the fields of all branches that waited filled in. -/
def resolved (emitter : Emitter) : Except CodegenError CodeBuffer :=
  emitter.fixups.toList.foldlM (resolve emitter.places) emitter.buffer

/-- Fills in the fields of all branches that waited. -/
def resolveAll : Emit Unit := do
  let emitter ← get
  let buffer ← resolved emitter
  set { emitter with buffer, fixups := #[] }

/-- Emits the code of a stream. -/
def stream (descriptors : Descriptors) (ops : Array Op) : Emit Unit := do
  insns X86.prologue
  ops.toList.forM (op descriptors)
  bind exit
  insns X86.epilogue
  -- a transfer that would leave the tape gives back the index of its target
  bind fault
  insns [.movRbxRcx]
  branch .jmp exit
  resolveAll

end Emit

/-- Generates the machine code of ops. -/
def templateCode (descriptors : Descriptors) (ops : Array Op) : Except Error (Array UInt8) :=
  match (Emit.stream descriptors ops).run Emit.start with
  | .ok ((), emitter) => .ok emitter.buffer.bytes
  | .error cause => .error (.codegen cause)

/-- Generated code, with the structure that it follows. -/
structure TemplateCode where
  /-- The machine code. -/
  bytes : Array UInt8
  /-- What the code does. -/
  block : Block Op
  /-- The descriptors that the code reads from and writes to. -/
  descriptors : Descriptors

namespace TemplateCode

/-- Generates code for ops. Ops for which there is code are properly nested, so the last case
does not arise. -/
def generate (descriptors : Descriptors) (ops : Array Op) : Except Error TemplateCode := do
  let bytes ← templateCode descriptors ops
  match Block.ofOps ops with
  | some block => return ⟨bytes, block, descriptors⟩
  | none => throw (.codegen .unmatchedClose)

/-- Calls the code on a machine. -/
def call (code : TemplateCode) (fuel : Nat) (machine : Machine) : Outcome Machine :=
  code.block.call code.descriptors fuel machine

end TemplateCode

end TapeLang

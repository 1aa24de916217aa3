import TapeLang.Error
import TapeLang.Native.Ir
import TapeLang.Op

/-!
# Lowering to intermediate code

The second way to native code hands a function in intermediate code to an optimizing code generator.
The ops are lowered one after another. A loop is a pair of blocks, its body and what comes behind
it, which is kept while the loop is open; a move of the pointer leaves through a common exit if the
index is not on the tape. Displacements must be signed 32-bit numbers, and the loops must nest:
faults are found in the order of the ops, and loops that are left open are found at the end.
-/

namespace TapeLang

/-- A function that is being lowered. -/
@[ext]
structure Lowering where
  /-- The lines so far. -/
  lines : Array Ir.Line
  /-- The number of values that have been given out. -/
  values : Nat
  /-- The number of labels that have been made. -/
  labels : Nat
  /-- The open loops, innermost first: the label of the body and the label behind the loop. -/
  loops : List (Ir.Label × Ir.Label)

/-- A step of lowering. -/
abbrev Lower := StateT Lowering (Except CodegenError)

namespace Lower

/-- The label of the first block. -/
def entry : Ir.Label := ⟨0⟩

/-- The label of the block that returns. -/
def exit : Ir.Label := ⟨1⟩

/-- The parameter of the first block: the address of the tape. -/
def tape : Ir.Value := ⟨0⟩

/-- The parameter of the block that returns: the index to return. -/
def result : Ir.Value := ⟨1⟩

/-- The function of which the first block has been begun. -/
def start : Lowering := ⟨#[.block entry [tape]], 2, 2, []⟩

/-- Adds a line. -/
def emit (line : Ir.Line) : Lower Unit :=
  modify fun lowering => { lowering with lines := lowering.lines.push line }

/-- Adds a line that defines a value. -/
def define (operation : Ir.Operation) : Lower Ir.Value :=
  modifyGet fun lowering => (⟨lowering.values⟩,
    { lowering with
      lines := lowering.lines.push (.define ⟨lowering.values⟩ operation)
      values := lowering.values + 1 })

/-- Makes a label. -/
def newLabel : Lower Ir.Label :=
  modifyGet fun lowering =>
    (⟨lowering.labels⟩, { lowering with labels := lowering.labels + 1 })

/-- Notes an open loop. -/
def pushLoop (body behind : Ir.Label) : Lower Unit :=
  modify fun lowering => { lowering with loops := (body, behind) :: lowering.loops }

/-- Takes the innermost open loop. -/
def popLoop : Lower (Ir.Label × Ir.Label) := do
  let lowering ← get
  match lowering.loops with
  | [] => throw .unmatchedClose
  | loop :: outer =>
    set { lowering with loops := outer }
    return loop

/-- A displacement, which must be a signed 32-bit number. -/
def displacement (number : Int) : Lower Int :=
  if -0x80000000 ≤ number ∧ number < 0x80000000 then return number
  else throw (.displacementTooWide number)

/-- The address of the current cell. -/
def cellAddress : Lower Ir.Value := do
  let index ← define .index
  define (.add tape index)

/-- The current cell. -/
def loadCell : Lower Ir.Value := do
  let address ← cellAddress
  define (.load address)

/-- Changes the current cell. -/
def storeCell (value : Ir.Value) : Lower Unit := do
  let address ← cellAddress
  emit (.store value address)

/-- A count as a byte. -/
def byte (count : Nat) : Lower Ir.Value :=
  define (.const .i8 (UInt8.ofNat count).toNat)

/-- Leaves through the exit with an index unless it is on the tape. -/
def checkBounds (index : Ir.Value) : Lower Unit := do
  let outside ← define (.aboveEq index tapeSize)
  let inside ← newLabel
  emit (.branch outside exit [index] inside [])
  emit (.block inside [])

/-- Moves the pointer. -/
def movePointer (delta : Int) : Lower Unit := do
  let index ← define .index
  let moved ← define (.addConst index delta)
  emit (.setIndex moved)
  checkBounds moved

/-- Calls a helper on the current cell. -/
def callHelper (helper : Ir.Helper) (descriptor : Int) (count : Nat) : Lower Unit := do
  let descriptor ← define (.const .i32 descriptor)
  let cell ← cellAddress
  let count ← define (.const .i64 (signedWord count))
  let callee ← define (.helper helper)
  emit (.call callee [descriptor, cell, count])

/-- Goes on in one block if the current cell is not zero, and in another one if it is; the one that
is named last is begun. -/
def test (loop behind next : Ir.Label) : Lower Ir.Value := do
  let value ← loadCell
  emit (.branch value loop [] behind [])
  emit (.block next [])
  return value

/-- Lowers an op. -/
def op (descriptors : Descriptors) : Op → Lower Unit
  | .forward count => do movePointer (← displacement count)
  | .backward count => do movePointer (-(← displacement count))
  | .add count => do
    let value ← loadCell
    let amount ← byte count
    let sum ← define (.add value amount)
    storeCell sum
  | .sub count => do
    let value ← loadCell
    let amount ← byte count
    let difference ← define (.sub value amount)
    storeCell difference
  | .write count => callHelper .writeCell descriptors.output count
  | .read count => callHelper .readCell descriptors.input count
  | .jumpIfZero _ => do
    let body ← newLabel
    let behind ← newLabel
    let _ ← test body behind body
    pushLoop body behind
  | .jumpIfNotZero _ => do
    let (body, behind) ← popLoop
    let _ ← test body behind behind
  | .setZero => do
    let zero ← byte 0
    storeCell zero
  | .scanUntilZero step => do
    let step ← displacement step
    let head ← newLabel
    let advance ← newLabel
    let done ← newLabel
    emit (.jump head [])
    emit (.block head [])
    let _ ← test advance done advance
    movePointer step
    emit (.jump head [])
    emit (.block done [])
  | .transferAndZero delta => do
    let delta ← displacement delta
    let transfer ← newLabel
    let done ← newLabel
    let value ← test transfer done transfer
    let index ← define .index
    let target ← define (.addConst index delta)
    -- off the tape the function is left before anything is stored
    checkBounds target
    let address ← define (.add tape target)
    let old ← define (.load address)
    let sum ← define (.add old value)
    emit (.store sum address)
    let zero ← byte 0
    storeCell zero
    emit (.jump done [])
    emit (.block done [])

/-- Ends the function: the index of the current cell is returned. -/
def finish : Lower Unit := do
  let lowering ← get
  match lowering.loops.length with
  | 0 =>
    let index ← define .index
    emit (.jump exit [index])
    emit (.block exit [result])
    emit (.ret result)
  | opened => throw (.loopsLeftOpen opened)

/-- Lowers a stream. The code starts at the first cell. -/
def stream (descriptors : Descriptors) (ops : Array Op) : Lower Unit := do
  let zero ← define (.const .i64 0)
  emit (.setIndex zero)
  ops.toList.forM (op descriptors)
  finish

end Lower

/-- The function that ops are lowered to. -/
def loweredFunction (descriptors : Descriptors) (ops : Array Op) : Except Error Ir.Function :=
  match (Lower.stream descriptors ops).run Lower.start with
  | .ok ((), lowering) => .ok ⟨lowering.lines⟩
  | .error cause => .error (.codegen cause)

/-- Native code as the optimizing code generator takes it, with the structure that it follows. -/
structure LoweredCode where
  /-- The function. -/
  function : Ir.Function
  /-- What the code does. -/
  block : Block Op
  /-- The descriptors that the code reads from and writes to. -/
  descriptors : Descriptors

namespace LoweredCode

/-- Lowers ops. Ops that can be lowered are properly nested, so the last case does not arise. -/
def generate (descriptors : Descriptors) (ops : Array Op) : Except Error LoweredCode := do
  let function ← loweredFunction descriptors ops
  match Block.ofOps ops with
  | some block => return ⟨function, block, descriptors⟩
  | none => throw (.codegen .unmatchedClose)

/-- Calls the code on a machine. -/
def call (code : LoweredCode) (fuel : Nat) (machine : Machine) : Outcome Machine :=
  code.block.call code.descriptors fuel machine

end LoweredCode

end TapeLang

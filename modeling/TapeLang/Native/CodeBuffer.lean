import TapeLang.Error
import TapeLang.Native.X86
import TapeLang.Op

/-!
# Code buffers

Code is emitted byte after byte. A field whose value is not known yet is emitted as a placeholder
and overwritten later; overwriting never changes the number of bytes, and is refused unless all
the bytes have been emitted already.
-/

namespace TapeLang

/-- The bytes emitted so far. -/
@[ext]
structure CodeBuffer where
  /-- The bytes in order. -/
  bytes : Array UInt8
  deriving DecidableEq

namespace CodeBuffer

/-- The buffer without bytes. -/
def empty : CodeBuffer := ⟨#[]⟩

/-- The number of bytes emitted, which is the offset of the next. -/
def size (buffer : CodeBuffer) : Nat :=
  buffer.bytes.size

/-- Emits bytes. -/
def emit (buffer : CodeBuffer) (bytes : List UInt8) : CodeBuffer :=
  ⟨buffer.bytes.appendList bytes⟩

/-- Emits one byte. -/
def emitByte (buffer : CodeBuffer) (byte : UInt8) : CodeBuffer :=
  buffer.emit [byte]

/-- Emits a word, lowest byte first. -/
def emitWord (buffer : CodeBuffer) (word : UInt32) : CodeBuffer :=
  buffer.emit (X86.littleEndian word)

/-- Overwrites bytes from `offset` on, as far as they have been emitted. -/
def overwrite (buffer : CodeBuffer) (offset : Nat) : List UInt8 → CodeBuffer
  | [] => buffer
  | byte :: rest => overwrite ⟨buffer.bytes.setIfInBounds offset byte⟩ (offset + 1) rest

/-- Overwrites the byte at `offset`. -/
def patchByte (buffer : CodeBuffer) (offset : Nat) (byte : UInt8) :
    Except CodegenError CodeBuffer :=
  if offset < buffer.size then .ok (buffer.overwrite offset [byte])
  else .error (.patchPastEnd offset buffer.size)

/-- Overwrites the four bytes from `offset` on with a word, lowest byte first. -/
def patchWord (buffer : CodeBuffer) (offset : Nat) (word : UInt32) :
    Except CodegenError CodeBuffer :=
  if offset + 4 ≤ buffer.size then .ok (buffer.overwrite offset (X86.littleEndian word))
  else .error (.widePatchPastEnd offset buffer.size)

/-- Emitting bytes puts them after all others. -/
@[simp]
theorem toList_bytes_emit (buffer : CodeBuffer) (bytes : List UInt8) :
    (buffer.emit bytes).bytes.toList = buffer.bytes.toList ++ bytes := by
  simp [emit]

/-- Emitting bytes makes the buffer longer by their number. -/
@[simp]
theorem size_emit (buffer : CodeBuffer) (bytes : List UInt8) :
    (buffer.emit bytes).size = buffer.size + bytes.length := by
  unfold size
  rw [← Array.length_toList, toList_bytes_emit]
  simp

/-- Overwriting bytes keeps their number. -/
@[simp]
theorem size_overwrite (buffer : CodeBuffer) (offset : Nat) (bytes : List UInt8) :
    (buffer.overwrite offset bytes).size = buffer.size := by
  induction bytes generalizing buffer offset with
  | nil => rfl
  | cons byte rest ih =>
    rw [overwrite, ih]
    simp [size]

end CodeBuffer

/-- The displacement of a branch that ends at `source` and leads to `target`, as the word of its
field. Offsets are seen as signed words, and their difference is taken as an unbounded integer, also
where it does not fit in a signed word. -/
def branchDisplacement (source target : Nat) : Except CodegenError UInt32 :=
  let displacement := signedWord target - signedWord source
  if -0x80000000 ≤ displacement ∧ displacement < 0x80000000 then .ok (UInt32.ofInt displacement)
  else .error (.branchTooFar source target)

end TapeLang

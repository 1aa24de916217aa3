/-!
# Machine instructions

The few x86-64 instructions that generated code is made of, and their encodings. The registers
have fixed roles: `r13` holds the address of the tape, `rbx` the index of the current cell, and
`rcx` and `rax` are for short use. `rbx` and `r13` survive system calls, `rcx` does not.
-/

namespace TapeLang

namespace X86

/-- The four bytes of a 32-bit word, lowest first. -/
def littleEndian (word : UInt32) : List UInt8 :=
  [word.toUInt8, (word >>> 8).toUInt8, (word >>> 16).toUInt8, (word >>> 24).toUInt8]

/-- A register that holds the index of a cell. -/
inductive IndexRegister where
  /-- The index of the current cell. -/
  | rbx
  /-- The index of the cell that a value is moved to. -/
  | rcx
  deriving DecidableEq

/-- The number of the register in an encoding. -/
def IndexRegister.number : IndexRegister → UInt8
  | .rbx => 3
  | .rcx => 1

/-- An operation on an index register and an immediate operand. -/
inductive IndexOperation where
  /-- Add the operand. -/
  | add
  /-- Subtract the operand. -/
  | sub
  /-- Compare with the operand. -/
  | cmp
  deriving DecidableEq

/-- The operation as it stands in the byte that names the operands. -/
def IndexOperation.code : IndexOperation → UInt8
  | .add => 0xC0
  | .sub => 0xE8
  | .cmp => 0xF8

/-- The kinds of branch; each is followed by a 32-bit displacement. -/
inductive Branch where
  /-- Branch if equal, that is, if the compared cell is zero. -/
  | jz
  /-- Branch if not equal. -/
  | jnz
  /-- Branch if above or equal, unsigned. -/
  | jae
  /-- Branch always. -/
  | jmp
  deriving DecidableEq

/-- The encoding of a branch without its displacement. -/
def Branch.opcode : Branch → List UInt8
  | .jz => [0x0F, 0x84]
  | .jnz => [0x0F, 0x85]
  | .jae => [0x0F, 0x83]
  | .jmp => [0xE9]

/-- A machine instruction. -/
inductive Insn where
  /-- `push rbx` -/
  | pushRbx
  /-- `push r13` -/
  | pushR13
  /-- `mov r13, rdi`: take the address of the tape. -/
  | movR13Rdi
  /-- `xor ebx, ebx`: start at the first cell. -/
  | xorEbxEbx
  /-- `mov rax, rbx`: give back the index. -/
  | movRaxRbx
  /-- `pop r13` -/
  | popR13
  /-- `pop rbx` -/
  | popRbx
  /-- `ret` -/
  | ret
  /-- `cmp byte [rbx+r13], 0` -/
  | cmpCellZero
  /-- `mov byte [rbx+r13], 0` -/
  | setCellZero
  /-- `add byte [rbx+r13], amount` -/
  | addCell (amount : UInt8)
  /-- `sub byte [rbx+r13], amount` -/
  | subCell (amount : UInt8)
  /-- `lea rsi, [rbx+r13]`: the address of the current cell. -/
  | leaRsiCell
  /-- `mov al, [rbx+r13]` -/
  | movAlCell
  /-- `add [rcx+r13], al` -/
  | addTargetAl
  /-- `mov rcx, rbx` -/
  | movRcxRbx
  /-- `mov rbx, rcx` -/
  | movRbxRcx
  /-- `add`, `sub` or `cmp` of an index register with a 32-bit operand. -/
  | index (operation : IndexOperation) (register : IndexRegister) (operand : UInt32)
  /-- `mov eax, number`: the system call to make. -/
  | movEax (number : UInt32)
  /-- `mov edi, number`: the descriptor. -/
  | movEdi (number : UInt32)
  /-- `mov edx, number`: the number of bytes. -/
  | movEdx (number : UInt32)
  /-- `syscall` -/
  | syscall
  /-- A branch with its displacement from the end of the instruction. -/
  | branch (condition : Branch) (displacement : UInt32)
  deriving DecidableEq

namespace Insn

/-- The bytes of an instruction. -/
def encode : Insn → List UInt8
  | pushRbx => [0x53]
  | pushR13 => [0x41, 0x55]
  | movR13Rdi => [0x49, 0x89, 0xFD]
  | xorEbxEbx => [0x31, 0xDB]
  | movRaxRbx => [0x48, 0x89, 0xD8]
  | popR13 => [0x41, 0x5D]
  | popRbx => [0x5B]
  | ret => [0xC3]
  | cmpCellZero => [0x42, 0x80, 0x3C, 0x2B, 0x00]
  | setCellZero => [0x42, 0xC6, 0x04, 0x2B, 0x00]
  | addCell amount => [0x42, 0x80, 0x04, 0x2B, amount]
  | subCell amount => [0x42, 0x80, 0x2C, 0x2B, amount]
  | leaRsiCell => [0x4A, 0x8D, 0x34, 0x2B]
  | movAlCell => [0x42, 0x8A, 0x04, 0x2B]
  | addTargetAl => [0x42, 0x00, 0x04, 0x29]
  | movRcxRbx => [0x48, 0x89, 0xD9]
  | movRbxRcx => [0x48, 0x89, 0xCB]
  | index operation register operand =>
    [0x48, 0x81, operation.code + register.number] ++ littleEndian operand
  | movEax number => 0xB8 :: littleEndian number
  | movEdi number => 0xBF :: littleEndian number
  | movEdx number => 0xBA :: littleEndian number
  | syscall => [0x0F, 0x05]
  | branch condition displacement => condition.opcode ++ littleEndian displacement

end Insn

/-- The bytes of instructions in a row. -/
def assemble (insns : List Insn) : List UInt8 :=
  insns.flatMap Insn.encode

/-- What generated code begins with: it saves the registers and starts at the first cell. -/
def prologue : List Insn := [.pushRbx, .pushR13, .movR13Rdi, .xorEbxEbx]

/-- What generated code ends with: it gives back the index and restores the registers. -/
def epilogue : List Insn := [.movRaxRbx, .popR13, .popRbx, .ret]

/-- The system calls that generated code makes. -/
inductive SystemCall where
  /-- Read from a descriptor. -/
  | read
  /-- Write to a descriptor. -/
  | write
  deriving DecidableEq

/-- The number of a system call. -/
def SystemCall.number : SystemCall → UInt32
  | .read => 0
  | .write => 1

/-- Makes the system call with a given number on the one byte of the current cell. -/
def cellSyscall (number descriptor : UInt32) : List Insn :=
  [.movEax number, .movEdi descriptor, .leaRsiCell, .movEdx 1, .syscall]

@[simp]
theorem length_littleEndian (word : UInt32) : (littleEndian word).length = 4 := rfl

/-- Instructions in a row are assembled one after another. -/
@[simp]
theorem assemble_append (insns others : List Insn) :
    assemble (insns ++ others) = assemble insns ++ assemble others :=
  List.flatMap_append

end X86

end TapeLang

import TapeLang.Channel
import TapeLang.Native.Block
import TapeLang.Native.X86

/-!
# The processor

The part of an x86-64 processor that generated code uses: its registers, two flags, a memory of
bytes, and the kernel behind `syscall`. Instructions are decoded from the bytes at the instruction
pointer; bytes that encode none of the instructions of `Insn`, and system calls other than reading
or writing one byte, have no meaning here.

* `X86.decode_encode`: the encodings are unambiguous.
* `X86.Cpu.step_of_fetch`: what a processor does next is told by the instruction it points to.
-/

namespace TapeLang

namespace X86

/-- The contents of a register, or an address. -/
abbrev Word := BitVec 64

/-- The number that bytes stand for, lowest byte first. -/
def ofLittleEndian : List UInt8 → Nat
  | [] => 0
  | byte :: rest => byte.toNat + 256 * ofLittleEndian rest

/-- The lowest bytes of a number, lowest byte first. -/
def toLittleEndian : Nat → Nat → List UInt8
  | 0, _ => []
  | count + 1, number => UInt8.ofNat number :: toLittleEndian count (number / 256)

/-- The 32-bit operand at the beginning of a row of bytes. -/
def operand (bytes : List UInt8) : UInt32 :=
  UInt32.ofNat (ofLittleEndian (bytes.take 4))

/-- The instruction at the beginning of a row of bytes. -/
def decode : List UInt8 → Option Insn
  | 0x53 :: _ => some .pushRbx
  | 0x5B :: _ => some .popRbx
  | 0xC3 :: _ => some .ret
  | 0x31 :: 0xDB :: _ => some .xorEbxEbx
  | 0x41 :: 0x55 :: _ => some .pushR13
  | 0x41 :: 0x5D :: _ => some .popR13
  | 0x48 :: 0x89 :: 0xD8 :: _ => some .movRaxRbx
  | 0x48 :: 0x89 :: 0xD9 :: _ => some .movRcxRbx
  | 0x48 :: 0x89 :: 0xCB :: _ => some .movRbxRcx
  | 0x49 :: 0x89 :: 0xFD :: _ => some .movR13Rdi
  | 0x42 :: 0x80 :: 0x3C :: 0x2B :: 0x00 :: _ => some .cmpCellZero
  | 0x42 :: 0xC6 :: 0x04 :: 0x2B :: 0x00 :: _ => some .setCellZero
  | 0x42 :: 0x80 :: 0x04 :: 0x2B :: amount :: _ => some (.addCell amount)
  | 0x42 :: 0x80 :: 0x2C :: 0x2B :: amount :: _ => some (.subCell amount)
  | 0x42 :: 0x8A :: 0x04 :: 0x2B :: _ => some .movAlCell
  | 0x42 :: 0x00 :: 0x04 :: 0x29 :: _ => some .addTargetAl
  | 0x4A :: 0x8D :: 0x34 :: 0x2B :: _ => some .leaRsiCell
  -- the byte behind the opcode has the operation and the register in it
  | 0x48 :: 0x81 :: 0xC3 :: rest => some (.index .add .rbx (operand rest))
  | 0x48 :: 0x81 :: 0xC1 :: rest => some (.index .add .rcx (operand rest))
  | 0x48 :: 0x81 :: 0xEB :: rest => some (.index .sub .rbx (operand rest))
  | 0x48 :: 0x81 :: 0xE9 :: rest => some (.index .sub .rcx (operand rest))
  | 0x48 :: 0x81 :: 0xFB :: rest => some (.index .cmp .rbx (operand rest))
  | 0x48 :: 0x81 :: 0xF9 :: rest => some (.index .cmp .rcx (operand rest))
  | 0xB8 :: rest => some (.movEax (operand rest))
  | 0xBF :: rest => some (.movEdi (operand rest))
  | 0xBA :: rest => some (.movEdx (operand rest))
  | 0x0F :: 0x05 :: _ => some .syscall
  | 0x0F :: 0x84 :: rest => some (.branch .jz (operand rest))
  | 0x0F :: 0x85 :: rest => some (.branch .jnz (operand rest))
  | 0x0F :: 0x83 :: rest => some (.branch .jae (operand rest))
  | 0xE9 :: rest => some (.branch .jmp (operand rest))
  | _ => none

/-- The bytes of a memory from an address on. -/
def bytesAt (memory : Word → UInt8) (address : Word) : Nat → List UInt8
  | 0 => []
  | count + 1 => memory address :: bytesAt memory (address + 1) count

/-- A memory in which one byte is changed. -/
def setByte (memory : Word → UInt8) (address : Word) (byte : UInt8) : Word → UInt8 :=
  fun other => if other = address then byte else memory other

/-- A memory in which the bytes from an address on are changed. -/
def setBytes (memory : Word → UInt8) (address : Word) : List UInt8 → Word → UInt8
  | [] => memory
  | byte :: rest => setByte (setBytes memory (address + 1) rest) address byte

/-- The 64-bit word in memory at an address. -/
def wordAt (memory : Word → UInt8) (address : Word) : Word :=
  BitVec.ofNat 64 (ofLittleEndian (bytesAt memory address 8))

/-- A memory in which the 64-bit word at an address is changed. -/
def setWord (memory : Word → UInt8) (address word : Word) : Word → UInt8 :=
  setBytes memory address (toLittleEndian 8 word.toNat)

/-- What a system call leaves in the registers that it does not keep. -/
structure Scratch where
  /-- The register that held the number of the call. -/
  rax : Word
  /-- A register that the processor itself uses for the call. -/
  rcx : Word
  /-- The other one. -/
  r11 : Word

/-- A processor with its memory and the kernel it runs under. -/
structure Cpu where
  /-- The instruction pointer. -/
  rip : Word
  /-- A general register, like the eight that follow. -/
  rax : Word
  rbx : Word
  rcx : Word
  rdx : Word
  rsi : Word
  rdi : Word
  rsp : Word
  r11 : Word
  r13 : Word
  /-- The zero flag. -/
  zero : Bool
  /-- The carry flag. -/
  carry : Bool
  /-- The memory. -/
  memory : Word → UInt8
  /-- What there is to read. -/
  input : Input
  /-- What has been written. -/
  output : Output
  /-- What the system calls to come leave behind, in order. -/
  scratch : Nat → Scratch

/-- What happens when an instruction is executed. -/
inductive Transition where
  /-- The next instruction follows. -/
  | next (cpu : Cpu)
  /-- The code has returned. -/
  | returned (cpu : Cpu)
  /-- The instruction has no meaning. -/
  | undefined

/-- The condition under which a branch is taken. -/
def Branch.taken (branch : Branch) (zero carry : Bool) : Bool :=
  match branch with
  | .jz => zero
  | .jnz => !zero
  | .jae => !carry
  | .jmp => true

namespace Cpu

/-- The contents of an index register. -/
def index (cpu : Cpu) : IndexRegister → Word
  | .rbx => cpu.rbx
  | .rcx => cpu.rcx

/-- Changes an index register. -/
def setIndex (cpu : Cpu) (register : IndexRegister) (word : Word) : Cpu :=
  match register with
  | .rbx => { cpu with rbx := word }
  | .rcx => { cpu with rcx := word }

/-- Puts a word on the stack. -/
def push (cpu : Cpu) (word : Word) : Cpu :=
  { cpu with rsp := cpu.rsp - 8, memory := setWord cpu.memory (cpu.rsp - 8) word }

/-- The word on top of the stack. -/
def top (cpu : Cpu) : Word :=
  wordAt cpu.memory cpu.rsp

/-- Takes the word on top of the stack away. -/
def drop (cpu : Cpu) : Cpu :=
  { cpu with rsp := cpu.rsp + 8 }

/-- Does arithmetic on an index register. -/
def arithmetic (cpu : Cpu) (operation : IndexOperation) (register : IndexRegister)
    (operand : Word) : Cpu :=
  let left := cpu.index register
  match operation with
  | .add =>
    { cpu.setIndex register (left + operand) with
      zero := left + operand == 0, carry := left.uaddOverflow operand }
  | .sub =>
    { cpu.setIndex register (left - operand) with
      zero := left == operand, carry := left.ult operand }
  | .cmp => { cpu with zero := left == operand, carry := left.ult operand }

/-- Adds to a byte in memory. -/
def addByte (cpu : Cpu) (address : Word) (amount : UInt8) : Cpu :=
  let byte := cpu.memory address
  { cpu with
    memory := setByte cpu.memory address (byte + amount)
    zero := byte + amount == 0, carry := byte.toBitVec.uaddOverflow amount.toBitVec }

/-- Subtracts from a byte in memory. -/
def subByte (cpu : Cpu) (address : Word) (amount : UInt8) : Cpu :=
  let byte := cpu.memory address
  { cpu with
    memory := setByte cpu.memory address (byte - amount)
    zero := byte == amount, carry := byte < amount }

/-- The byte in the low part of `rax`. -/
def al (cpu : Cpu) : UInt8 :=
  UInt8.ofNat cpu.rax.toNat

/-- Changes the low part of `rax`. -/
def setAl (cpu : Cpu) (byte : UInt8) : Cpu :=
  { cpu with rax := BitVec.ofNat 64 (cpu.rax.toNat / 256 * 256 + byte.toNat) }

/-- Reads a byte from a descriptor to an address. At the end of the input, and after an error, the
memory is left alone. -/
def readTo (cpu : Cpu) (descriptor : Int) (address : Word) : Cpu :=
  if Descriptors.usable descriptor then
    match cpu.input.read with
    | (.ok (some byte), input) => { cpu with memory := setByte cpu.memory address byte, input }
    | (_, input) => { cpu with input }
  else cpu

/-- Writes the byte at an address to a descriptor. -/
def writeFrom (cpu : Cpu) (descriptor : Int) (address : Word) : Cpu :=
  if Descriptors.usable descriptor then
    match cpu.output.write (cpu.memory address) with
    | .ok output => { cpu with output }
    | .error _ => cpu
  else cpu

/-- Makes a system call: `rax` holds its number, `edi` the descriptor, `rsi` the address and `rdx`
the number of bytes. -/
def systemCall (cpu : Cpu) : Transition :=
  let left := cpu.scratch 0
  let after := { cpu with
    rax := left.rax, rcx := left.rcx, r11 := left.r11
    scratch := fun call => cpu.scratch (call + 1) }
  let descriptor := (cpu.rdi.setWidth 32).toInt
  if cpu.rdx = 1 then
    if cpu.rax = 0 then .next (after.readTo descriptor cpu.rsi)
    else if cpu.rax = 1 then .next (after.writeFrom descriptor cpu.rsi)
    else .undefined
  else .undefined

/-- Executes an instruction, when the instruction pointer stands behind it. -/
def execute (cpu : Cpu) : Insn → Transition
  | .pushRbx => .next (cpu.push cpu.rbx)
  | .pushR13 => .next (cpu.push cpu.r13)
  | .movR13Rdi => .next { cpu with r13 := cpu.rdi }
  | .xorEbxEbx => .next { cpu with rbx := 0, zero := true, carry := false }
  | .movRaxRbx => .next { cpu with rax := cpu.rbx }
  | .popR13 => .next { cpu.drop with r13 := cpu.top }
  | .popRbx => .next { cpu.drop with rbx := cpu.top }
  | .ret => .returned { cpu.drop with rip := cpu.top }
  | .cmpCellZero =>
    .next { cpu with zero := cpu.memory (cpu.rbx + cpu.r13) == 0, carry := false }
  | .setCellZero => .next { cpu with memory := setByte cpu.memory (cpu.rbx + cpu.r13) 0 }
  | .addCell amount => .next (cpu.addByte (cpu.rbx + cpu.r13) amount)
  | .subCell amount => .next (cpu.subByte (cpu.rbx + cpu.r13) amount)
  | .leaRsiCell => .next { cpu with rsi := cpu.rbx + cpu.r13 }
  | .movAlCell => .next (cpu.setAl (cpu.memory (cpu.rbx + cpu.r13)))
  | .addTargetAl => .next (cpu.addByte (cpu.rcx + cpu.r13) cpu.al)
  | .movRcxRbx => .next { cpu with rcx := cpu.rbx }
  | .movRbxRcx => .next { cpu with rbx := cpu.rcx }
  | .index operation register operand =>
    .next (cpu.arithmetic operation register (operand.toBitVec.signExtend 64))
  | .movEax number => .next { cpu with rax := number.toBitVec.setWidth 64 }
  | .movEdi number => .next { cpu with rdi := number.toBitVec.setWidth 64 }
  | .movEdx number => .next { cpu with rdx := number.toBitVec.setWidth 64 }
  | .syscall => cpu.systemCall
  | .branch condition displacement =>
    .next { cpu with
      rip := if condition.taken cpu.zero cpu.carry then
        cpu.rip + displacement.toBitVec.signExtend 64 else cpu.rip }

/-- The instruction that the instruction pointer points to. No instruction is longer than seven
bytes. -/
def fetch (cpu : Cpu) : Option Insn :=
  decode (bytesAt cpu.memory cpu.rip 7)

/-- Moves the instruction pointer on. -/
def advance (cpu : Cpu) (length : Nat) : Cpu :=
  { cpu with rip := cpu.rip + BitVec.ofNat 64 length }

/-- Fetches an instruction and executes it. -/
def step (cpu : Cpu) : Transition :=
  match cpu.fetch with
  | some insn => (cpu.advance insn.encode.length).execute insn
  | none => .undefined

/-- The processor after a number of steps, unless the code has returned or has no meaning. -/
def after : Nat → Cpu → Option Cpu
  | 0, cpu => some cpu
  | steps + 1, cpu =>
    match cpu.step with
    | .next cpu => after steps cpu
    | .returned _ | .undefined => none

/-- The code that a processor executes returns. -/
def Returns (cpu final : Cpu) : Prop :=
  ∃ steps last, cpu.after steps = some last ∧ last.step = .returned final

end Cpu

/-- An instruction is at most seven bytes long. -/
theorem length_encode_le (insn : Insn) : insn.encode.length ≤ 7 := by
  cases insn with
  | branch condition displacement => cases condition <;> exact Nat.le_of_ble_eq_true rfl
  | _ => exact Nat.le_of_ble_eq_true rfl

/-- The operand that was encoded is read back. -/
theorem operand_littleEndian (word : UInt32) (rest : List UInt8) :
    operand (littleEndian word ++ rest) = word := by
  rw [operand, List.take_left' (length_littleEndian word)]
  refine UInt32.toNat_inj.mp ?_
  have hlt := word.toNat_lt
  simp only [littleEndian, ofLittleEndian, UInt32.toNat_toUInt8, UInt32.toNat_shiftRight,
    UInt32.toNat_ofNat', Nat.shiftRight_eq_div_pow]
  simp only [UInt32.reduceToNat, Nat.reduceMod, Nat.reducePow]
  omega

/-- The encodings are unambiguous. -/
theorem decode_encode (insn : Insn) (rest : List UInt8) :
    decode (insn.encode ++ rest) = some insn := by
  cases insn with
  | index operation register word =>
    rw [Insn.encode, List.append_assoc]
    have hword := operand_littleEndian word rest
    cases operation <;> cases register <;>
      exact congrArg (fun word => some (Insn.index _ _ word)) hword
  | branch condition word =>
    rw [Insn.encode, List.append_assoc]
    have hword := operand_littleEndian word rest
    cases condition <;> exact congrArg (fun word => some (Insn.branch _ word)) hword
  | movEax word =>
    exact congrArg (fun word => some (Insn.movEax word)) (operand_littleEndian word rest)
  | movEdi word =>
    exact congrArg (fun word => some (Insn.movEdi word)) (operand_littleEndian word rest)
  | movEdx word =>
    exact congrArg (fun word => some (Insn.movEdx word)) (operand_littleEndian word rest)
  | _ => rfl

@[simp]
theorem length_toLittleEndian (count number : Nat) :
    (toLittleEndian count number).length = count := by
  induction count generalizing number with
  | zero => rfl
  | succ count ih => rw [toLittleEndian, List.length_cons, ih]

/-- The lowest bytes of a number stand for its remainder. -/
theorem ofLittleEndian_toLittleEndian (count number : Nat) :
    ofLittleEndian (toLittleEndian count number) = number % Nat.pow 256 count := by
  induction count generalizing number with
  | zero =>
    rw [toLittleEndian, ofLittleEndian]
    exact (Nat.mod_one number).symm
  | succ count ih =>
    have hpow : Nat.pow 256 (count + 1) = 256 * Nat.pow 256 count := Nat.pow_succ'
    have hbyte : (UInt8.ofNat number).toNat = number % 256 := UInt8.toNat_ofNat'
    rw [toLittleEndian, ofLittleEndian, ih, hbyte, hpow, Nat.mod_mul]

section Memory

variable {memory memory' : Word → UInt8} {address other : Word} {bytes : List UInt8}

/-- One byte on, and then some more. -/
theorem add_one_add (address : Word) (count : Nat) :
    address + 1 + BitVec.ofNat 64 count = address + BitVec.ofNat 64 (count + 1) := by
  rw [BitVec.ofNat_add, BitVec.add_assoc, BitVec.add_comm (BitVec.ofNat 64 count)]
  rfl

@[simp]
theorem length_bytesAt (memory : Word → UInt8) (address : Word) (count : Nat) :
    (bytesAt memory address count).length = count := by
  induction count generalizing address with
  | zero => rfl
  | succ count ih => rw [bytesAt, List.length_cons, ih]

/-- Bytes follow one another. -/
theorem bytesAt_add (memory : Word → UInt8) (address : Word) (count more : Nat) :
    bytesAt memory address (count + more) =
      bytesAt memory address count ++ bytesAt memory (address + BitVec.ofNat 64 count) more := by
  induction count generalizing address with
  | zero => simp [bytesAt]
  | succ count ih =>
    rw [Nat.add_right_comm, bytesAt, bytesAt, ih, add_one_add]
    rfl

/-- The bytes of two memories that agree. -/
theorem bytesAt_congr {count : Nat}
    (h : ∀ k < count,
      memory (address + BitVec.ofNat 64 k) = memory' (address + BitVec.ofNat 64 k)) :
    bytesAt memory address count = bytesAt memory' address count := by
  induction count generalizing address with
  | zero => rfl
  | succ count ih =>
    have hfirst : memory address = memory' address := by simpa using h 0 (by omega)
    rw [bytesAt, bytesAt, hfirst, ih]
    intro k hk
    rw [add_one_add]
    exact h (k + 1) (by omega)

@[simp]
theorem setByte_self (memory : Word → UInt8) (address : Word) (byte : UInt8) :
    setByte memory address byte address = byte := if_pos rfl

/-- The other bytes are kept. -/
theorem setByte_of_ne (h : other ≠ address) (memory : Word → UInt8) (byte : UInt8) :
    setByte memory address byte other = memory other := if_neg h

/-- The bytes at other addresses are kept. -/
theorem setBytes_of_ne (h : ∀ k < bytes.length, other ≠ address + BitVec.ofNat 64 k) :
    setBytes memory address bytes other = memory other := by
  induction bytes generalizing address with
  | nil => rfl
  | cons byte rest ih =>
    have hfirst : other ≠ address := by simpa using h 0 (by simp)
    rw [setBytes, setByte_of_ne hfirst, ih]
    intro k hk
    rw [add_one_add]
    exact h (k + 1) (by simpa using hk)

/-- The bytes that were changed are read back, if they do not go round the whole memory. -/
theorem bytesAt_setBytes (memory : Word → UInt8) (address : Word) (bytes : List UInt8)
    (h : bytes.length ≤ 0x10000000000000000) :
    bytesAt (setBytes memory address bytes) address bytes.length = bytes := by
  induction bytes generalizing address with
  | nil => rfl
  | cons byte rest ih =>
    rw [List.length_cons] at h
    rw [setBytes, List.length_cons, bytesAt, setByte_self]
    have hrest : bytesAt (setByte (setBytes memory (address + 1) rest) address byte) (address + 1)
        rest.length = bytesAt (setBytes memory (address + 1) rest) (address + 1) rest.length := by
      refine bytesAt_congr fun k hk => setByte_of_ne (fun heq => ?_) _ _
      rw [add_one_add] at heq
      have hzero := congrArg BitVec.toNat (BitVec.self_eq_add_right.mp heq.symm)
      simp only [BitVec.toNat_ofNat, Nat.reducePow, Nat.zero_mod] at hzero
      omega
    rw [hrest, ih (address + 1) (by omega)]

/-- The word that was changed is read back. -/
theorem wordAt_setWord (memory : Word → UInt8) (address word : Word) :
    wordAt (setWord memory address word) address = word := by
  have hbytes := bytesAt_setBytes memory address (toLittleEndian 8 word.toNat) (by simp)
  rw [length_toLittleEndian] at hbytes
  rw [wordAt, setWord, hbytes, ofLittleEndian_toLittleEndian]
  refine BitVec.eq_of_toNat_eq ?_
  have hlt := word.isLt
  simp only [BitVec.toNat_ofNat, Nat.pow_eq, Nat.reducePow] at hlt ⊢
  omega

end Memory

namespace Cpu

variable {cpu mid : Cpu} {insn : Insn}

/-- An instruction is fetched from its bytes. -/
theorem fetch_of_bytesAt (h : bytesAt cpu.memory cpu.rip insn.encode.length = insn.encode) :
    cpu.fetch = some insn := by
  have hsplit := bytesAt_add cpu.memory cpu.rip insn.encode.length (7 - insn.encode.length)
  rw [Nat.add_sub_cancel' (length_encode_le insn), h] at hsplit
  rw [fetch, hsplit, decode_encode]

/-- The instruction that is fetched is executed. -/
theorem step_of_fetch (h : cpu.fetch = some insn) :
    cpu.step = (cpu.advance insn.encode.length).execute insn := by
  rw [step, h]

/-- Steps follow one another. -/
theorem after_add (steps more : Nat) (cpu : Cpu) :
    cpu.after (steps + more) = (cpu.after steps).bind (after more) := by
  induction steps generalizing cpu with
  | zero => rw [Nat.zero_add, after, Option.bind_some]
  | succ steps ih =>
    rw [Nat.add_right_comm, after, after]
    cases cpu.step with
    | next next => exact ih next
    | returned final => rfl
    | undefined => rfl

end Cpu

end X86

end TapeLang

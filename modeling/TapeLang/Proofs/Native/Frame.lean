import TapeLang.Proofs.Native.Cpu
import TapeLang.Proofs.Native.Layout
import TapeLang.Proofs.Tape

/-!
# Running generated code

What generated code does instruction by instruction. `X86.Frame` is the place in which it runs,
`X86.Stands` says that a processor stands at an offset of the code and holds a machine, and
`X86.Leads` that it gets from one state to another through states that are safe: it executes an
instruction of the listing, and where that works on memory, it works on a cell of the tape.

* `X86.Stands.leads`: a processor that stands at an instruction executes it.
* `X86.leads_test`: the test of the current cell at both ends of a loop.
* `X86.leads_shift`: the check that keeps an index on the tape, in both directions.
-/

namespace TapeLang

namespace X86

section Words

/-- The word of a signed number. -/
theorem toBitVec_ofInt (value : Int) : (UInt32.ofInt value).toBitVec = BitVec.ofInt 32 value := by
  refine BitVec.eq_of_toNat_eq ?_
  rw [UInt32.ofInt, BitVec.toNat_ofInt, UInt32.toNat_toBitVec, UInt32.toNat_ofNat']
  omega

/-- A signed operand keeps its value. -/
theorem signExtend_ofInt {value : Int} (hlow : -0x80000000 ≤ value) (hhigh : value < 0x80000000) :
    (UInt32.ofInt value).toBitVec.signExtend 64 = BitVec.ofInt 64 value := by
  rw [toBitVec_ofInt, BitVec.signExtend,
    BitVec.toInt_ofInt_eq_self (by decide) (by omega) (by omega)]

/-- An operand that is not too large keeps its value. -/
theorem signExtend_ofNat {value : Nat} (h : value < 0x80000000) :
    (UInt32.ofNat value).toBitVec.signExtend 64 = BitVec.ofInt 64 value := by
  have hword : UInt32.ofNat value = UInt32.ofInt value := by
    refine UInt32.toNat_inj.mp ?_
    rw [UInt32.ofInt, UInt32.toNat_ofNat', UInt32.toNat_ofNat']
    omega
  rw [hword, signExtend_ofInt (by omega) (by omega)]

/-- A descriptor is passed on as it is. -/
theorem toInt_setWidth_ofInt {descriptor : Int} (hlow : -0x80000000 ≤ descriptor)
    (hhigh : descriptor < 0x80000000) :
    (((UInt32.ofInt descriptor).toBitVec.setWidth 64).setWidth 32).toInt = descriptor := by
  rw [BitVec.setWidth_setWidth_of_le _ (by decide), BitVec.setWidth_eq, toBitVec_ofInt,
    BitVec.toInt_ofInt_eq_self (by decide) (by omega) (by omega)]

/-- A signed word has the bits of its number. -/
theorem ofInt_signedWord (value : Int) :
    BitVec.ofInt 64 (signedWord value) = BitVec.ofInt 64 value := by
  refine BitVec.eq_of_toInt_eq ?_
  rw [BitVec.toInt_ofInt, BitVec.toInt_ofInt, signedWord_eq_bmod]
  exact Int.bmod_bmod

/-- A displacement leads from its source to its target, wherever the code is. -/
theorem add_branchDisplacement {source target : Nat} {displacement : UInt32} (base : Word)
    (h : branchDisplacement source target = .ok displacement) :
    base + BitVec.ofNat 64 source + displacement.toBitVec.signExtend 64 =
      base + BitVec.ofNat 64 target := by
  unfold branchDisplacement at h
  simp only at h
  split at h
  · next hrange =>
    cases h
    rw [signExtend_ofInt hrange.1 hrange.2, Int.sub_eq_add_neg, BitVec.ofInt_add, BitVec.ofInt_neg,
      ofInt_signedWord, ofInt_signedWord, BitVec.ofInt_natCast, BitVec.ofInt_natCast]
    grind
  · cases h

/-- An unsigned comparison finds the indices on both sides of the tape. -/
theorem ult_tapeSize {position : Int} (h : position.natAbs < 0x100000000) :
    (BitVec.ofInt 64 position).ult (BitVec.ofInt 64 tapeSize) =
      decide (0 ≤ position ∧ position < tapeSize) := by
  rw [BitVec.ult_eq_decide]
  congr 1
  simp only [BitVec.toNat_ofInt, tapeSize, Nat.reducePow, Int.reduceMod, Int.reduceToNat,
    Int.cast_ofNat_Int, eq_iff_iff]
  omega

end Words

/-- The address of a cell of the tape. -/
def cell (tape : Word) (index : Fin tapeSize) : Word :=
  tape + BitVec.ofNat 64 index

/-- Different cells have different addresses. -/
theorem cell_inj {tape : Word} {index other : Fin tapeSize} :
    cell tape index = cell tape other ↔ index = other := by
  constructor
  · intro h
    have hnat := congrArg BitVec.toNat ((BitVec.add_right_inj tape).mp h)
    have hindex := index.isLt
    have hother := other.isLt
    simp only [BitVec.toNat_ofNat, tapeSize, Nat.reducePow] at hnat hindex hother
    exact Fin.ext (by omega)
  · rintro rfl
    rfl

/-- The address that an instruction works on, if it is not the stack's. -/
def Insn.address? (cpu : Cpu) : Insn → Option Word
  | .cmpCellZero | .setCellZero | .addCell _ | .subCell _ | .leaRsiCell | .movAlCell =>
    some (cpu.rbx + cpu.r13)
  | .addTargetAl => some (cpu.rcx + cpu.r13)
  | .syscall => some cpu.rsi
  | _ => none

/-- The processor is about to execute an instruction of a listing that is loaded at `base`. If that
works on memory, it works on a cell of the tape. -/
def Cpu.Safe (listing : List Insn) (base tape : Word) (cpu : Cpu) : Prop :=
  ∃ offset insn, Starts listing offset insn ∧ cpu.rip = base + BitVec.ofNat 64 offset ∧
    cpu.fetch = some insn ∧
    ∀ address, insn.address? cpu = some address → ∃ index, address = cell tape index

/-- A number of steps leads from one state to another, through states with a property. -/
inductive Leads (p : Cpu → Prop) : Nat → Cpu → Cpu → Prop
  | refl (cpu : Cpu) : Leads p 0 cpu cpu
  | step {steps : Nat} {cpu mid final : Cpu} (hp : p cpu) (hstep : cpu.step = .next mid)
      (hrest : Leads p steps mid final) : Leads p (steps + 1) cpu final

/-- Where generated code runs. -/
structure Frame (listing : List Insn) where
  /-- The address of the code. -/
  base : Word
  /-- The address of the tape. -/
  tape : Word
  /-- The top of the stack. -/
  stack : Word
  /-- The memory when the code begins. -/
  memory : Word → UInt8
  /-- The code is in memory. -/
  loaded : bytesAt memory base (assemble listing).length = assemble listing
  /-- The code is not on the tape. -/
  apart : ∀ offset < (assemble listing).length, ∀ index,
    base + BitVec.ofNat 64 offset ≠ cell tape index

variable {listing : List Insn} {frame : Frame listing} {p : Cpu → Prop}
  {steps more offset target : Nat} {cpu mid final : Cpu} {insn : Insn} {index word : Word}
  {machine : Machine}

/-- The states in which generated code may be. -/
def Frame.Safe (frame : Frame listing) (cpu : Cpu) : Prop :=
  cpu.Safe listing frame.base frame.tape

/-- The processor stands at an offset of the code with an index in `rbx`, and the memory outside
the tape is as it was. The tape, the input and the output are those of a machine. -/
structure Stands (frame : Frame listing) (offset : Nat) (index : Word) (machine : Machine)
    (cpu : Cpu) : Prop where
  rip : cpu.rip = frame.base + BitVec.ofNat 64 offset
  rbx : cpu.rbx = index
  r13 : cpu.r13 = frame.tape
  rsp : cpu.rsp = frame.stack
  /-- The cells are on the tape. -/
  cells : ∀ index, cpu.memory (cell frame.tape index) = machine.tape.cells.get index
  /-- The rest of the memory is as it was. -/
  rest : ∀ address, (∀ index, address ≠ cell frame.tape index) →
    cpu.memory address = frame.memory address
  input : cpu.input = machine.input
  output : cpu.output = machine.output

/-- The processor stands at an offset of the code with the index of the current cell in `rbx`. -/
def OnCell (frame : Frame listing) (offset : Nat) (machine : Machine) (cpu : Cpu) : Prop :=
  Stands frame offset (BitVec.ofNat 64 machine.tape.pointer) machine cpu

namespace Leads

/-- One step. -/
theorem one (hp : p cpu) (hstep : cpu.step = .next final) : Leads p 1 cpu final :=
  .step hp hstep (.refl final)

/-- Steps follow one another. -/
theorem trans (h : Leads p steps cpu mid) (h' : Leads p more mid final) :
    Leads p (steps + more) cpu final := by
  induction h with
  | refl cpu => rwa [Nat.zero_add]
  | step hp hstep _ ih =>
    rw [Nat.add_right_comm]
    exact .step hp hstep (ih h')

/-- The state after the steps. -/
theorem after_eq (h : Leads p steps cpu final) : cpu.after steps = some final := by
  induction h with
  | refl cpu => rfl
  | step _ hstep _ ih =>
    rw [Cpu.after, hstep]
    exact ih

/-- The states before the last one have the property, and are not the last of the code. -/
theorem of_after_lt (h : Leads p steps cpu final) (hlt : more < steps)
    (hmid : cpu.after more = some mid) : p mid ∧ ∃ next, mid.step = .next next := by
  induction h generalizing more with
  | refl cpu => omega
  | step hp hstep _ ih =>
    cases more with
    | zero =>
      cases hmid
      exact ⟨hp, _, hstep⟩
    | succ more =>
      rw [Cpu.after, hstep] at hmid
      exact ih (by omega) hmid

end Leads

/-- Further bytes on, and then some more. -/
theorem add_ofNat_add (address : Word) (count more : Nat) :
    address + BitVec.ofNat 64 count + BitVec.ofNat 64 more =
      address + BitVec.ofNat 64 (count + more) := by
  rw [BitVec.ofNat_add, BitVec.add_assoc]

/-- An instruction of a listing that is loaded is fetched. -/
theorem Starts.fetch {base : Word} (h : Starts listing offset insn)
    (hloaded : bytesAt cpu.memory base (assemble listing).length = assemble listing)
    (hrip : cpu.rip = base + BitVec.ofNat 64 offset) : cpu.fetch = some insn := by
  obtain ⟨before, after, rfl, rfl⟩ := h
  have hassemble : assemble (before ++ insn :: after) =
      assemble before ++ (insn.encode ++ assemble after) := by
    rw [assemble_append]
    rfl
  rw [hassemble, List.length_append, List.length_append, bytesAt_add, bytesAt_add] at hloaded
  have hrest := List.append_inj_right hloaded (length_bytesAt _ _ _)
  have hinsn := List.append_inj_left hrest (length_bytesAt _ _ _)
  refine Cpu.fetch_of_bytesAt ?_
  rw [hrip]
  exact hinsn

/-- An instruction of a listing that is loaded is executed. -/
theorem Starts.leads (h : Starts listing offset insn)
    (hloaded : bytesAt cpu.memory frame.base (assemble listing).length = assemble listing)
    (hrip : cpu.rip = frame.base + BitVec.ofNat 64 offset)
    (haddress : insn.address? cpu = none ∨
      ∃ index, insn.address? cpu = some (cell frame.tape index))
    (hexecute : (cpu.advance insn.encode.length).execute insn = .next final) :
    Leads frame.Safe 1 cpu final := by
  have hfetch := h.fetch hloaded hrip
  have hcell : ∀ address, insn.address? cpu = some address →
      ∃ index, address = cell frame.tape index := by
    intro address hsome
    rcases haddress with hnone | ⟨index, hindex⟩
    · rw [hnone] at hsome
      cases hsome
    · rw [hindex] at hsome
      exact ⟨index, (Option.some.inj hsome).symm⟩
  refine .one ⟨offset, insn, h, hrip, hfetch, hcell⟩ ?_
  rw [Cpu.step_of_fetch hfetch, hexecute]

namespace Stands

/-- The code is still in memory. -/
theorem loaded (h : Stands frame offset index machine cpu) :
    bytesAt cpu.memory frame.base (assemble listing).length = assemble listing := by
  refine Eq.trans (bytesAt_congr fun k hk => ?_) frame.loaded
  exact h.rest _ (frame.apart k hk)

/-- A processor that stands at an instruction executes it. -/
theorem leads (h : Stands frame offset index machine cpu) (hstarts : Starts listing offset insn)
    (haddress : insn.address? cpu = none ∨
      ∃ index, insn.address? cpu = some (cell frame.tape index))
    (hexecute : (cpu.advance insn.encode.length).execute insn = .next final) :
    Leads frame.Safe 1 cpu final :=
  hstarts.leads h.loaded h.rip haddress hexecute

/-- The instruction pointer moves on. -/
theorem advance (h : Stands frame offset index machine cpu) (length : Nat) :
    Stands frame (offset + length) index machine (cpu.advance length) :=
  { h with
    rip := by
      rw [← add_ofNat_add, ← h.rip]
      rfl }

/-- The byte of a cell is changed. -/
theorem setByte (h : Stands frame offset index machine cpu) (position : Fin tapeSize)
    (change : UInt8 → UInt8) {byte : UInt8}
    (hbyte : byte = change (machine.tape.cells.get position)) :
    Stands frame offset index (machine.withTape (machine.tape.modifyCell position change))
      { cpu with memory := X86.setByte cpu.memory (cell frame.tape position) byte } :=
  { h with
    cells := fun other => by
      by_cases heq : other = position
      · subst heq
        rw [Machine.tape_withTape, Tape.cells_modifyCell_self, ← hbyte]
        exact setByte_self _ _ _
      · rw [Machine.tape_withTape, Tape.cells_modifyCell_of_ne (Ne.symm heq), ← h.cells]
        exact setByte_of_ne (fun hcell => heq (cell_inj.mp hcell)) _ _
    rest := fun address haddress => by
      rw [← h.rest address haddress]
      exact setByte_of_ne (haddress position) _ _ }

end Stands

/-- The address of the current cell. -/
theorem OnCell.address_eq (h : OnCell frame offset machine cpu) :
    cpu.rbx + cpu.r13 = cell frame.tape machine.tape.pointer := by
  rw [h.rbx, h.r13, cell, BitVec.add_comm]

/-- The value of the current cell. -/
theorem OnCell.memory_eq (h : OnCell frame offset machine cpu) :
    cpu.memory (cpu.rbx + cpu.r13) = machine.tape.current := by
  rw [h.address_eq, h.cells]
  rfl

/-- A branch goes on at its target, or behind it. -/
theorem leads_branch {condition : Branch} (h : Stands frame offset index machine cpu)
    (hlaid : Laid listing offset [.branch condition target]) :
    ∃ rip, Leads frame.Safe 1 cpu { cpu with rip := rip } ∧
      Stands frame (if condition.taken cpu.zero cpu.carry then target
        else offset + (condition.opcode.length + 4)) index machine { cpu with rip := rip } := by
  obtain ⟨⟨insn, hinsn, hstarts⟩, -⟩ := hlaid
  obtain ⟨displacement, hdisplacement, rfl⟩ := Line.insnAt_branch_eq_ok.mp hinsn
  have hlength : (Insn.branch condition displacement).encode.length =
      condition.opcode.length + 4 := by
    rw [Insn.encode, List.length_append, length_littleEndian]
  have hleads := h.leads hstarts (.inl rfl) rfl
  have hadvance := h.advance (condition.opcode.length + 4)
  rw [hlength] at hleads
  have htarget := add_branchDisplacement frame.base hdisplacement
  rw [Nat.add_assoc, ← hadvance.rip] at htarget
  refine ⟨_, hleads, { hadvance with rip := ?_ }⟩
  show (if condition.taken cpu.zero cpu.carry then
    (cpu.advance (condition.opcode.length + 4)).rip + displacement.toBitVec.signExtend 64
    else (cpu.advance (condition.opcode.length + 4)).rip) = _
  by_cases htaken : condition.taken cpu.zero cpu.carry
  · rw [if_pos htaken, if_pos htaken, htarget]
  · rw [if_neg htaken, if_neg htaken, hadvance.rip]

/-- The test of the current cell. -/
theorem leads_test {condition : Branch} (h : OnCell frame offset machine cpu)
    (hlaid : Laid listing offset [.insn .cmpCellZero, .branch condition target]) :
    ∃ next, Leads frame.Safe 2 cpu next ∧
      OnCell frame (if condition.taken (machine.tape.current == 0) false then target
        else offset + (condition.opcode.length + 9)) machine next := by
  obtain ⟨hstarts, hbranch⟩ := laid_insn_cons.mp hlaid
  have hleads := h.leads hstarts (.inr ⟨_, congrArg some h.address_eq⟩) rfl
  have htested : Stands frame (offset + 5) _ machine
      { cpu.advance 5 with zero := cpu.memory (cpu.rbx + cpu.r13) == 0, carry := false } :=
    { h.advance 5 with }
  obtain ⟨rip, hjump, hnext⟩ := leads_branch htested hbranch
  refine ⟨_, hleads.trans hjump, ?_⟩
  rw [← h.memory_eq, show offset + (condition.opcode.length + 9) =
    offset + 5 + (condition.opcode.length + 4) by omega]
  exact hnext

/-- The test at a loop start leaves the loop if the current cell is zero. -/
theorem leads_jz (h : OnCell frame offset machine cpu)
    (hlaid : Laid listing offset [.insn .cmpCellZero, .branch .jz target]) :
    ∃ next, Leads frame.Safe 2 cpu next ∧
      if machine.tape.current = 0 then OnCell frame target machine next
      else OnCell frame (offset + 11) machine next := by
  obtain ⟨next, hleads, hnext⟩ := leads_test h hlaid
  refine ⟨next, hleads, ?_⟩
  by_cases hzero : machine.tape.current = 0
  · rw [hzero] at hnext
    rwa [if_pos hzero]
  · rw [beq_eq_false_iff_ne.mpr hzero] at hnext
    rwa [if_neg hzero]

/-- The test at a loop end leaves the loop under the same condition. -/
theorem leads_jnz (h : OnCell frame offset machine cpu)
    (hlaid : Laid listing offset [.insn .cmpCellZero, .branch .jnz target]) :
    ∃ next, Leads frame.Safe 2 cpu next ∧
      if machine.tape.current = 0 then OnCell frame (offset + 11) machine next
      else OnCell frame target machine next := by
  obtain ⟨next, hleads, hnext⟩ := leads_test h hlaid
  refine ⟨next, hleads, ?_⟩
  by_cases hzero : machine.tape.current = 0
  · rw [hzero] at hnext
    rwa [if_pos hzero]
  · rw [beq_eq_false_iff_ne.mpr hzero] at hnext
    rwa [if_neg hzero]

/-- Adding a displacement or subtracting its opposite changes an index register, and the flags. -/
theorem arithmetic_eq (cpu : Cpu) {register : IndexRegister} {position delta : Int}
    (hreach : delta.natAbs < 0x80000000) (hindex : cpu.index register = BitVec.ofInt 64 position) :
    ∃ zero carry, cpu.arithmetic (if 0 ≤ delta then .add else .sub) register
        ((UInt32.ofNat delta.natAbs).toBitVec.signExtend 64) =
      { cpu.setIndex register (BitVec.ofInt 64 (position + delta)) with zero, carry } := by
  rw [signExtend_ofNat hreach]
  by_cases hsign : 0 ≤ delta
  · have hsum : BitVec.ofInt 64 position + BitVec.ofInt 64 delta.natAbs =
        BitVec.ofInt 64 (position + delta) := by
      rw [← BitVec.ofInt_add, Int.natAbs_of_nonneg hsign]
    rw [if_pos hsign, Cpu.arithmetic, hindex, hsum]
    exact ⟨_, _, rfl⟩
  · have hsum : BitVec.ofInt 64 position - BitVec.ofInt 64 delta.natAbs =
        BitVec.ofInt 64 (position + delta) := by
      rw [BitVec.sub_eq_add_neg, ← BitVec.ofInt_neg, ← BitVec.ofInt_add]
      congr 2
      omega
    rw [if_neg hsign, Cpu.arithmetic, hindex, hsum]
    exact ⟨_, _, rfl⟩

/-- An index register is changed. -/
theorem Stands.setIndex (h : Stands frame offset index machine cpu) (register : IndexRegister)
    (word : Word) : Stands frame offset (cpu.setIndex register word).rbx machine
      (cpu.setIndex register word) := by
  cases register with
  | rbx => exact { h with rbx := rfl }
  | rcx => exact { h with rbx := rfl }

/-- The check of an index register goes on behind itself if the index is on the tape, and outside
otherwise. -/
theorem leads_check {register : IndexRegister} {position : Int}
    (h : Stands frame offset index machine cpu)
    (hlaid : Laid listing offset
      [.insn (.index .cmp register (UInt32.ofNat tapeSize)), .branch .jae target])
    (hsmall : position.natAbs < 0x100000000)
    (hindex : cpu.index register = BitVec.ofInt 64 position) :
    ∃ next, Leads frame.Safe 2 cpu next ∧ next.index register = BitVec.ofInt 64 position ∧
      Stands frame (if 0 ≤ position ∧ position < tapeSize then offset + 13 else target) index
        machine next := by
  obtain ⟨hstarts, hbranch⟩ := laid_insn_cons.mp hlaid
  obtain ⟨compared, hcompare, hcarry, hkept, hcompared⟩ : ∃ compared,
      Leads frame.Safe 1 cpu compared ∧
      compared.carry = decide (0 ≤ position ∧ position < tapeSize) ∧
      compared.index register = BitVec.ofInt 64 position ∧
      Stands frame (offset + 7) index machine compared := by
    refine ⟨_, h.leads hstarts (.inl rfl) rfl, ?_, ?_, { h.advance 7 with }⟩
    · -- one unsigned comparison finds the indices on both sides of the tape
      rw [← ult_tapeSize hsmall, ← hindex, ← signExtend_ofNat (by decide)]
      cases register <;> rfl
    · rw [← hindex]
      cases register <;> rfl
  obtain ⟨rip, hjump, hnext⟩ := leads_branch hcompared hbranch
  refine ⟨_, hcompare.trans hjump, ?_, ?_⟩
  · rw [← hkept]
    cases register <;> rfl
  · have htaken : Branch.jae.taken compared.zero compared.carry =
        !decide (0 ≤ position ∧ position < tapeSize) := by rw [Branch.taken, hcarry]
    by_cases hrange : 0 ≤ position ∧ position < tapeSize
    · rw [if_pos hrange]
      rw [htaken, decide_eq_true hrange] at hnext
      exact hnext
    · rw [if_neg hrange]
      rw [htaken, decide_eq_false hrange] at hnext
      exact hnext

/-- A shift of an index register goes on behind itself if the result is on the tape, and outside
otherwise. -/
theorem leads_shift {register : IndexRegister} {position delta : Int}
    (h : Stands frame offset index machine cpu)
    (hlaid : Laid listing offset (shiftLines register delta target))
    (hreach : delta.natAbs < 0x80000000) (hindex : cpu.index register = BitVec.ofInt 64 position)
    (hposition : 0 ≤ position ∧ position < tapeSize) :
    ∃ next, Leads frame.Safe 3 cpu next ∧
      next.index register = BitVec.ofInt 64 (position + delta) ∧
      (register = .rcx → next.rbx = index) ∧
      Stands frame (if 0 ≤ position + delta ∧ position + delta < tapeSize then offset + 20
        else target) next.rbx machine next := by
  obtain ⟨hstarts, hcheck⟩ := laid_insn_cons.mp hlaid
  obtain ⟨zero, carry, hsum⟩ := arithmetic_eq (cpu.advance 7) hreach hindex
  have hleads := h.leads hstarts (.inl rfl) (congrArg _ hsum)
  have hshifted : Stands frame (offset + 7) _ machine
      { (cpu.advance 7).setIndex register (BitVec.ofInt 64 (position + delta)) with zero, carry } :=
    { (h.advance 7).setIndex register (BitVec.ofInt 64 (position + delta)) with }
  -- an index on the tape that is moved by 31 bits stays within 32 bits
  have hsmall : (position + delta).natAbs < 0x100000000 := by
    rw [tapeSize] at hposition
    omega
  have hresult : Cpu.index
      { (cpu.advance 7).setIndex register (BitVec.ofInt 64 (position + delta)) with zero, carry }
      register = BitVec.ofInt 64 (position + delta) := by
    cases register <;> rfl
  obtain ⟨next, hleads', hindex', hnext⟩ := leads_check hshifted hcheck hsmall hresult
  refine ⟨next, hleads.trans hleads', hindex', ?_, ?_⟩
  · rintro rfl
    exact hnext.rbx.trans h.rbx
  · rw [hnext.rbx]
    exact hnext

end X86

end TapeLang

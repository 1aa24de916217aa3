import TapeLang.Proofs.Idioms
import TapeLang.Proofs.Native.Frame
import TapeLang.Proofs.Native.Steps

/-!
# Generated code and structured execution

The code of a block, run on a processor that holds a machine, does what the structured execution of
the block does. `X86.Comes` says what that means for each outcome.

* `X86.comes_op`: the code of an op.
* `X86.implements_lines`: the code of a block implements it, by recursion over the block.
-/

namespace TapeLang

namespace X86

variable {listing : List Insn} {frame : Frame listing} {count offset exit behind slack : Nat}
  {cpu next : Cpu} {machine : Machine} {outcome : Outcome Machine}

/-- The steps of generated code. -/
def Frame.steps (frame : Frame listing) : Steps Cpu where
  Leads := Leads frame.Safe
  refl := .refl
  trans := Leads.trans

/-- The code stands at its exit with an index that is not on the tape. -/
def AtExit (frame : Frame listing) (exit : Nat) (index : Int) (machine : Machine) (cpu : Cpu) :
    Prop :=
  Stands frame exit (BitVec.ofInt 64 index) machine cpu

/-- From a state the code comes to where an outcome says: behind its lines, or to the exit with an
index that is not on the tape. If the outcome is not known, it takes at least `slack` steps. -/
abbrev Comes (frame : Frame listing) (exit behind slack : Nat) (cpu : Cpu)
    (outcome : Outcome Machine) : Prop :=
  frame.steps.Comes (OnCell frame behind) (AtExit frame exit) slack cpu outcome

/-- What comes after some steps. -/
theorem Leads.comes (h : Leads frame.Safe count cpu next)
    (hnext : Comes frame exit behind slack next outcome) :
    Comes frame exit behind slack cpu outcome :=
  have hleads : frame.steps.Leads count cpu next := h
  (Steps.comes_of_leads hleads hnext).mono (Nat.le_add_right _ _)

/-- The code of a move of the pointer. -/
theorem comes_moveBy {delta : Int} (h : OnCell frame offset machine cpu)
    (hlaid : Laid listing offset (shiftLines .rbx delta exit)) (hreach : delta.natAbs < 0x80000000)
    (slack : Nat) : Comes frame exit (offset + 20) slack cpu (machine.moveBy delta) := by
  have hpointer := machine.tape.pointer.isLt
  obtain ⟨next, hleads, hindex, -, hnext⟩ := leads_shift h hlaid hreach
    (h.rbx.trans (BitVec.ofInt_natCast _ _).symm) ⟨Int.natCast_nonneg _, by omega⟩
  rw [show next.rbx = BitVec.ofInt 64 (machine.tape.pointer + delta) from hindex] at hnext
  refine Steps.comes_moveBy (Nat.le_of_lt hreach) slack (fun tape hmove => ?_) fun hrange => ?_
  · obtain ⟨hcells, htarget⟩ := Tape.moveBy_eq_done_iff.mp hmove
    have hlt := tape.pointer.isLt
    rw [if_pos ⟨by omega, by omega⟩, ← htarget, BitVec.ofInt_natCast] at hnext
    refine ⟨3, next, hleads, { hnext with cells := fun index => ?_ }⟩
    rw [hnext.cells, ← hcells]
    rfl
  · rw [if_neg hrange] at hnext
    exact ⟨3, next, hleads, hnext⟩

/-- The code of a scan. -/
theorem comes_scan {step : Int} (h : OnCell frame offset machine cpu)
    (hlaid : Laid listing offset
      (unlessZero offset (shiftLines .rbx step exit ++ [.branch .jmp offset])))
    (hreach : step.natAbs < 0x80000000) (slack : Nat) :
    Comes frame exit (offset + 36) slack cpu (machine.onTape (·.scanUntilZero step)) := by
  obtain ⟨htest, hinner⟩ := laid_unlessZero.mp hlaid
  obtain ⟨hshift, hback⟩ := laid_append.mp hinner
  have htested : ∀ machine cpu, OnCell frame offset machine cpu →
      ∃ count next, 0 < count ∧ frame.steps.Leads count cpu next ∧
        if machine.tape.current = 0 then OnCell frame (offset + 36) machine next
        else OnCell frame (offset + 11) machine next := by
    intro machine cpu h
    obtain ⟨next, hleads, hnext⟩ := leads_jz h htest
    exact ⟨2, next, Nat.two_pos, hleads, hnext⟩
  have hmoved : ∀ machine cpu slack, OnCell frame (offset + 11) machine cpu →
      Comes frame exit (offset + 31) slack cpu (machine.moveBy step) :=
    fun machine cpu slack h => comes_moveBy h hshift hreach slack
  have hjumped : ∀ machine cpu, OnCell frame (offset + 31) machine cpu →
      ∃ count next, frame.steps.Leads count cpu next ∧ OnCell frame offset machine next := by
    intro machine cpu h
    obtain ⟨rip, hleads, hnext⟩ := leads_branch h hback
    exact ⟨1, _, hleads, hnext⟩
  exact Steps.comes_scanUntilZero htested hmoved hjumped h slack

/-- An instruction that changes the current cell. -/
theorem leads_change {insn : Insn} {change : UInt8 → UInt8} (h : OnCell frame offset machine cpu)
    (hstarts : Starts listing offset insn)
    (haddress : ∀ cpu : Cpu, insn.address? cpu = some (cpu.rbx + cpu.r13))
    (hexecute : ∀ cpu : Cpu, ∃ zero carry, cpu.execute insn = .next { cpu with
      memory := setByte cpu.memory (cpu.rbx + cpu.r13) (change (cpu.memory (cpu.rbx + cpu.r13)))
      zero, carry }) :
    ∃ next, Leads frame.Safe 1 cpu next ∧ OnCell frame (offset + insn.encode.length)
      (machine.mapTape fun tape => tape.modifyCell tape.pointer change) next := by
  obtain ⟨zero, carry, hnext⟩ := hexecute (cpu.advance insn.encode.length)
  have hcell : insn.address? cpu = some (cell frame.tape machine.tape.pointer) := by
    rw [haddress, h.address_eq]
  have hchanged := (h.advance insn.encode.length).setByte machine.tape.pointer change
    (congrArg change h.memory_eq)
  rw [← h.address_eq] at hchanged
  exact ⟨_, h.leads hstarts (.inr ⟨_, hcell⟩) hnext, { hchanged with }⟩

/-- The code that sets the current cell to zero. -/
theorem leads_setCellZero (h : OnCell frame offset machine cpu)
    (hstarts : Starts listing offset .setCellZero) :
    ∃ next, Leads frame.Safe 1 cpu next ∧
      OnCell frame (offset + 5) (machine.mapTape (·.setCurrent 0)) next :=
  leads_change h hstarts (fun _ => rfl) fun cpu => ⟨cpu.zero, cpu.carry, rfl⟩

@[simp]
theorem al_setAl (cpu : Cpu) (byte : UInt8) : (cpu.setAl byte).al = byte := by
  refine UInt8.toNat_inj.mp ?_
  have hbyte := byte.toNat_lt
  have hword := cpu.rax.isLt
  simp only [Cpu.al, Cpu.setAl, UInt8.toNat_ofNat', BitVec.toNat_ofNat, Nat.reducePow]
    at hbyte hword ⊢
  omega

/-- The part of the code of a transfer that works on cells. -/
theorem leads_transfer {target : Fin tapeSize} (h : OnCell frame offset machine cpu)
    (hrcx : cpu.rcx = BitVec.ofNat 64 target)
    (hlaid : Laid listing offset [.insn .movAlCell, .insn .addTargetAl, .insn .setCellZero]) :
    ∃ next, Leads frame.Safe 3 cpu next ∧ OnCell frame (offset + 13) (machine.mapTape fun tape =>
      (tape.modifyCell target (· + tape.current)).setCurrent 0) next := by
  obtain ⟨hload, hrest⟩ := laid_insn_cons.mp hlaid
  obtain ⟨hadd, hrest⟩ := laid_insn_cons.mp hrest
  obtain ⟨hset, -⟩ := laid_insn_cons.mp hrest
  let loaded : Cpu := (cpu.advance 4).setAl (cpu.memory (cpu.rbx + cpu.r13))
  have hleadsLoad : Leads frame.Safe 1 cpu loaded :=
    h.leads hload (.inr ⟨_, congrArg some h.address_eq⟩) rfl
  have hloaded : Stands frame (offset + 4) _ machine loaded := { h.advance 4 with }
  have htarget : cpu.rcx + cpu.r13 = cell frame.tape target := by
    rw [hrcx, h.r13, cell, BitVec.add_comm]
  have hleadsAdd := hloaded.leads hadd (.inr ⟨target, congrArg some htarget⟩) rfl
  have hadded := (hloaded.advance 4).setByte target (· + machine.tape.current)
    (congrArg (· + machine.tape.current) (hloaded.cells target))
  have hcell : OnCell frame (offset + 8)
      (machine.withTape (machine.tape.modifyCell target (· + machine.tape.current)))
      ((loaded.advance 4).addByte (cpu.rcx + cpu.r13) loaded.al) := by
    rw [al_setAl, h.memory_eq, htarget]
    exact { hadded with }
  obtain ⟨next, hleadsSet, hnext⟩ := leads_setCellZero hcell hset
  exact ⟨next, hleadsLoad.trans (hleadsAdd.trans hleadsSet), hnext⟩

/-- The code that gives back the index of an impossible transfer. -/
theorem leads_fault {fault : Nat} {index : Word} (h : Stands frame fault index machine cpu)
    (hlaid : Laid listing fault [.insn .movRbxRcx, .branch .jmp exit]) :
    ∃ next, Leads frame.Safe 2 cpu next ∧ Stands frame exit cpu.rcx machine next := by
  obtain ⟨hcopy, hjump⟩ := laid_insn_cons.mp hlaid
  have hleads := h.leads hcopy (.inl rfl) rfl
  have hcopied : Stands frame (fault + 3) cpu.rcx machine
      { cpu.advance 3 with rbx := cpu.rcx } := { h.advance 3 with rbx := rfl }
  obtain ⟨rip, hleads', hnext⟩ := leads_branch hcopied hjump
  exact ⟨_, hleads.trans hleads', hnext⟩

/-- The part of the code of a transfer that finds the target. -/
theorem leads_target {delta : Int} {fault : Nat} (h : OnCell frame offset machine cpu)
    (hlaid : Laid listing offset (.insn .movRcxRbx :: shiftLines .rcx delta fault))
    (hreach : delta.natAbs < 0x80000000) :
    ∃ next, Leads frame.Safe 4 cpu next ∧
      next.rcx = BitVec.ofInt 64 (machine.tape.pointer + delta) ∧
      OnCell frame (if 0 ≤ machine.tape.pointer + delta ∧ machine.tape.pointer + delta < tapeSize
        then offset + 23 else fault) machine next := by
  obtain ⟨hcopy, hshift⟩ := laid_insn_cons.mp hlaid
  have hleads := h.leads hcopy (.inl rfl) rfl
  have hcopied : Stands frame (offset + 3) _ machine { cpu.advance 3 with rcx := cpu.rbx } :=
    { h.advance 3 with }
  have hpointer := machine.tape.pointer.isLt
  obtain ⟨next, hleads', hindex, hrbx, hnext⟩ := leads_shift hcopied hshift hreach
    (h.rbx.trans (BitVec.ofInt_natCast _ _).symm) ⟨Int.natCast_nonneg _, by omega⟩
  rw [hrbx rfl] at hnext
  exact ⟨next, hleads.trans hleads', hindex, hnext⟩

/-- The code of a transfer. -/
theorem comes_transfer {delta : Int} {fault : Nat} (h : OnCell frame offset machine cpu)
    (hlaid : Laid listing offset (unlessZero offset (.insn .movRcxRbx ::
      (shiftLines .rcx delta fault ++
        [.insn .movAlCell, .insn .addTargetAl, .insn .setCellZero]))))
    (hfault : Laid listing fault [.insn .movRbxRcx, .branch .jmp exit])
    (hreach : delta.natAbs < 0x80000000) (slack : Nat) :
    Comes frame exit (offset + 47) slack cpu (machine.onTape (·.transferAndZero delta)) := by
  obtain ⟨htest, hinner⟩ := laid_unlessZero.mp hlaid
  rw [← List.cons_append] at hinner
  obtain ⟨hfind, htransfer⟩ := laid_append.mp hinner
  obtain ⟨tested, hleads, htested⟩ := leads_jz h htest
  rw [Machine.onTape_eq, Tape.transferAndZero]
  by_cases hzero : machine.tape.current = 0
  · rw [if_pos hzero] at htested ⊢
    exact ⟨2, tested, hleads, htested⟩
  · rw [if_neg hzero] at htested ⊢
    obtain ⟨found, hleads', hrcx, hfound⟩ := leads_target htested hfind hreach
    have hfront := hleads.trans hleads'
    cases htarget : machine.tape.offset delta with
    | ok target =>
      have hindex : (machine.tape.pointer : Int) + delta = target :=
        Tape.index?_eq_ok_iff.mp htarget
      have hlt := target.isLt
      rw [if_pos ⟨by omega, by omega⟩] at hfound
      rw [hindex, BitVec.ofInt_natCast] at hrcx
      obtain ⟨next, hlast, hnext⟩ := leads_transfer hfound hrcx htransfer
      exact ⟨_, next, hfront.trans hlast, hnext⟩
    | error error =>
      -- the code leaves before it has changed a cell
      obtain ⟨rfl, hrange⟩ := Tape.of_offset_eq_error htarget
      rw [if_neg hrange] at hfound
      obtain ⟨next, hlast, hnext⟩ := leads_fault hfound hfault
      rw [hrcx] at hnext
      have hpointer := machine.tape.pointer.isLt
      simp only [tapeSize] at hpointer
      exact ⟨_, rfl, hrange, by omega, _, next, hfront.trans hlast, hnext⟩

/-- What a system call does to a machine. -/
def SystemCall.act (call : SystemCall) (descriptor : Int) (machine : Machine) : Machine :=
  match call with
  | .read => machine.readFrom descriptor
  | .write => machine.writeTo descriptor

/-- A byte that is read goes to the current cell. -/
theorem onCell_readTo {descriptor : Int} (h : OnCell frame offset machine cpu) :
    OnCell frame offset (machine.readFrom descriptor)
      (cpu.readTo descriptor (cell frame.tape machine.tape.pointer)) := by
  obtain ⟨tape, input, output⟩ := machine
  rw [Machine.readFrom, Cpu.readTo, h.input]
  by_cases husable : Descriptors.usable descriptor
  · rw [if_pos husable, if_pos husable]
    dsimp only
    cases input.read with
    | mk result rest =>
      cases result with
      | ok value =>
        cases value with
        | some byte => exact { h.setByte tape.pointer (fun _ => byte) rfl with input := rfl }
        | none => exact { h with input := rfl }
      | error error => exact { h with input := rfl }
  · rw [if_neg husable, if_neg husable]
    exact h

/-- The byte that is written is the current cell. -/
theorem onCell_writeFrom {descriptor : Int} (h : OnCell frame offset machine cpu) :
    OnCell frame offset (machine.writeTo descriptor)
      (cpu.writeFrom descriptor (cell frame.tape machine.tape.pointer)) := by
  obtain ⟨tape, input, output⟩ := machine
  rw [Machine.writeTo, Cpu.writeFrom, h.output, h.cells]
  by_cases husable : Descriptors.usable descriptor
  · rw [if_pos husable, if_pos husable]
    dsimp only
    rw [show tape.cells.get tape.pointer = tape.current from rfl]
    cases output.write tape.current with
    | ok output => exact { h with output := rfl }
    | error error => exact h
  · rw [if_neg husable, if_neg husable]
    exact h

/-- The kernel works on the current cell. -/
theorem exists_systemCall (call : SystemCall) (descriptor : Int)
    (h : OnCell frame offset machine cpu) (hrax : cpu.rax = call.number.toBitVec.setWidth 64)
    (hrdi : (cpu.rdi.setWidth 32).toInt = descriptor)
    (hrsi : cpu.rsi = cell frame.tape machine.tape.pointer) (hrdx : cpu.rdx = 1) :
    ∃ next, cpu.systemCall = .next next ∧
      OnCell frame offset (call.act descriptor machine) next := by
  rw [Cpu.systemCall, if_pos hrdx, hrdi, hrsi]
  cases call with
  | read =>
    have hzero : cpu.rax = 0 := hrax
    rw [if_pos hzero]
    exact ⟨_, rfl, onCell_readTo { h with }⟩
  | write =>
    have hone : cpu.rax = 1 := hrax
    have hne : ¬ cpu.rax = 0 := by
      rw [hone]
      decide
    rw [if_neg hne, if_pos hone]
    exact ⟨_, rfl, onCell_writeFrom { h with }⟩

/-- The code of a system call on the current cell. -/
theorem leads_syscall {call : SystemCall} {descriptor : Int} (hlow : -0x80000000 ≤ descriptor)
    (hhigh : descriptor < 0x80000000) (h : OnCell frame offset machine cpu)
    (hlaid : Laid listing offset (syscallLines call descriptor)) :
    ∃ next, Leads frame.Safe 5 cpu next ∧
      OnCell frame (offset + 21) (call.act descriptor machine) next := by
  obtain ⟨hnumber, hrest⟩ := laid_insn_cons.mp hlaid
  obtain ⟨hdescriptor, hrest⟩ := laid_insn_cons.mp hrest
  obtain ⟨haddress, hrest⟩ := laid_insn_cons.mp hrest
  obtain ⟨hcount, hrest⟩ := laid_insn_cons.mp hrest
  obtain ⟨hcall, -⟩ := laid_insn_cons.mp hrest
  let first : Cpu := { cpu.advance 5 with rax := call.number.toBitVec.setWidth 64 }
  let second : Cpu :=
    { first.advance 5 with rdi := (UInt32.ofInt descriptor).toBitVec.setWidth 64 }
  let third : Cpu := { second.advance 4 with rsi := second.rbx + second.r13 }
  let fourth : Cpu := { third.advance 5 with rdx := (1 : UInt32).toBitVec.setWidth 64 }
  have leadsFirst : Leads frame.Safe 1 cpu first := h.leads hnumber (.inl rfl) rfl
  have hfirst : OnCell frame (offset + 5) machine first := { h.advance 5 with }
  have leadsSecond : Leads frame.Safe 1 first second := hfirst.leads hdescriptor (.inl rfl) rfl
  have hsecond : OnCell frame (offset + 10) machine second := { hfirst.advance 5 with }
  -- the kernel works on the address that is computed here
  have hcell := hsecond.address_eq
  have leadsThird : Leads frame.Safe 1 second third :=
    hsecond.leads haddress (.inr ⟨_, congrArg some hcell⟩) rfl
  have hthird : OnCell frame (offset + 14) machine third := { hsecond.advance 4 with }
  have leadsFourth : Leads frame.Safe 1 third fourth := hthird.leads hcount (.inl rfl) rfl
  have hfourth : OnCell frame (offset + 19) machine fourth := { hthird.advance 5 with }
  obtain ⟨next, hnext, hcalled⟩ := exists_systemCall call descriptor (hfourth.advance 2) rfl
    (toInt_setWidth_ofInt hlow hhigh) hcell rfl
  have leadsNext : Leads frame.Safe 1 fourth next :=
    hfourth.leads hcall (.inr ⟨_, congrArg some hcell⟩) hnext
  exact ⟨next, leadsFirst.trans (leadsSecond.trans (leadsThird.trans
    (leadsFourth.trans leadsNext))), hcalled⟩

/-- The code of some system calls on the current cell. -/
theorem comes_syscalls (call : SystemCall) {descriptor : Int}
    (hlow : -0x80000000 ≤ descriptor) (hhigh : descriptor < 0x80000000) {count : Nat}
    (h : OnCell frame offset machine cpu)
    (hlaid : Laid listing offset (List.replicate count (syscallLines call descriptor)).flatten)
    (slack : Nat) :
    Comes frame exit
      (offset + width (List.replicate count (syscallLines call descriptor)).flatten) slack cpu
      (Outcome.iterate (fun machine => .done (call.act descriptor machine)) count machine) := by
  induction count generalizing offset machine cpu with
  | zero => exact ⟨0, cpu, .refl cpu, h⟩
  | succ count ih =>
    rw [List.replicate_succ, List.flatten_cons] at hlaid ⊢
    obtain ⟨hfirst, hrest⟩ := laid_append.mp hlaid
    obtain ⟨next, hleads, hnext⟩ := leads_syscall hlow hhigh h hfirst
    rw [Outcome.iterate_succ, Outcome.bind_done, width_append, ← Nat.add_assoc]
    exact hleads.comes (ih hnext hrest)

/-- The code of a change of the current cell that is left out if the amount is zero. -/
theorem comes_adjust {insn : Insn} {amount : UInt8} (change : UInt8 → UInt8)
    (h : OnCell frame offset machine cpu)
    (hlaid : Laid listing offset (if amount = 0 then [] else [.insn insn]))
    (hzero : amount = 0 → ∀ value, change value = value)
    (haddress : ∀ cpu : Cpu, insn.address? cpu = some (cpu.rbx + cpu.r13))
    (hexecute : ∀ cpu : Cpu, ∃ zero carry, cpu.execute insn = .next { cpu with
      memory := setByte cpu.memory (cpu.rbx + cpu.r13) (change (cpu.memory (cpu.rbx + cpu.r13)))
      zero, carry }) (slack : Nat) :
    Comes frame exit (offset + width (if amount = 0 then [] else [.insn insn])) slack cpu
      (.done (machine.mapTape fun tape => tape.modifyCell tape.pointer change)) := by
  by_cases hamount : amount = 0
  · rw [if_pos hamount, Machine.mapTape_eq, Tape.modifyCell_eq_self (hzero hamount _),
      Machine.withTape_tape]
    exact ⟨0, cpu, .refl cpu, h⟩
  · rw [if_neg hamount] at hlaid ⊢
    obtain ⟨hstarts, -⟩ := laid_insn_cons.mp hlaid
    obtain ⟨next, hleads, hnext⟩ := leads_change h hstarts haddress hexecute
    exact ⟨1, next, hleads, hnext⟩

variable {descriptors : Descriptors} {exits : Exits}

/-- The code of an op. -/
theorem comes_op {item : Op} (hfit : descriptors.Fit) (hreach : item.InReach)
    (hfault : Laid listing exits.fault [.insn .movRbxRcx, .branch .jmp exits.exit])
    (h : OnCell frame offset machine cpu)
    (hlaid : Laid listing offset (item.lines descriptors exits offset)) (slack : Nat) :
    Comes frame exits.exit (offset + width (item.lines descriptors exits offset)) slack cpu
      (item.actNative descriptors machine) := by
  cases item with
  | forward count =>
    have hcount : count < 0x80000000 := hreach
    have hsmall : (count : Int).natAbs < 0x80000000 := by omega
    show Comes _ _ (offset + 20) _ _ (machine.moveBy (signedWord count))
    rw [signedWord_natCast (by omega)]
    replace hlaid : Laid listing offset (shiftLines .rbx count exits.exit) := hlaid
    -- otherwise the cast of the count is unfolded where the code is compared
    generalize (count : Int) = delta at hlaid hsmall ⊢
    exact comes_moveBy h hlaid hsmall slack
  | backward count =>
    have hcount : count < 0x80000000 := hreach
    show Comes _ _ (offset + 20) _ _ (machine.moveBy (-signedWord count))
    rw [signedWord_natCast (by omega)]
    exact comes_moveBy h hlaid (by omega) slack
  | add count =>
    refine comes_adjust (· + UInt8.ofNat count) h hlaid ?_ (fun _ => rfl)
      (fun cpu => ⟨_, _, rfl⟩) slack
    intro hzero value
    rw [hzero, UInt8.add_zero]
  | sub count =>
    refine comes_adjust (· - UInt8.ofNat count) h hlaid ?_ (fun _ => rfl)
      (fun cpu => ⟨_, _, rfl⟩) slack
    intro hzero value
    rw [hzero, UInt8.sub_zero]
  | write count => exact comes_syscalls .write hfit.output.1 hfit.output.2 h hlaid slack
  | read count => exact comes_syscalls .read hfit.input.1 hfit.input.2 h hlaid slack
  | setZero =>
    obtain ⟨hstarts, -⟩ := laid_insn_cons.mp hlaid
    obtain ⟨next, hleads, hnext⟩ := leads_setCellZero h hstarts
    exact ⟨1, next, hleads, hnext⟩
  | scanUntilZero step => exact comes_scan h hlaid hreach slack
  | transferAndZero delta => exact comes_transfer h hlaid hfault hreach slack
  | jumpIfZero target => exact ⟨0, cpu, .refl cpu, h⟩
  | jumpIfNotZero target => exact ⟨0, cpu, .refl cpu, h⟩

/-- The code of a block implements it. -/
theorem implements_lines (hfit : descriptors.Fit)
    (hfault : Laid listing exits.fault [.insn .movRbxRcx, .branch .jmp exits.exit])
    {block : Block Op} (hreach : block.All Op.InReach)
    (hlaid : Laid listing offset (block.lines descriptors exits offset))
    {behind : Machine → Cpu → Prop} (hbehind : ∀ machine cpu,
      OnCell frame (offset + width (block.lines descriptors exits offset)) machine cpu →
      behind machine cpu) :
    frame.steps.Implements (Op.actNative descriptors) (AtExit frame exits.exit)
      (OnCell frame offset) block behind := by
  induction block generalizing offset behind with
  | done => exact hbehind
  | op item rest ih =>
    obtain ⟨hitem, hrest⟩ := laid_append.mp hlaid
    refine ⟨OnCell frame (offset + width (item.lines descriptors exits offset)),
      fun machine cpu slack h => comes_op hfit hreach.1 hfault h hitem slack,
      ih hreach.2 hrest fun machine cpu h => hbehind machine cpu ?_⟩
    rw [Block.lines, width_append, ← Nat.add_assoc]
    exact h
  | loop body rest ihbody ihrest =>
    obtain ⟨hloop, hrest⟩ := laid_append.mp hlaid
    obtain ⟨hhead, hinner⟩ := laid_unlessZero.mp hloop
    obtain ⟨hbody, hend⟩ := laid_append.mp hinner
    let inner := width (body.lines descriptors exits (offset + 11))
    have hwidth : offset + width (loopLines offset (body.lines descriptors exits (offset + 11))) =
        offset + 11 + inner + 11 := by
      rw [width_loopLines]
      omega
    -- the tests at both ends of a loop go on in the same two places
    have htests : ∀ machine cpu,
        OnCell frame offset machine cpu ∨ OnCell frame (offset + 11 + inner) machine cpu →
        ∃ count next, 0 < count ∧ frame.steps.Leads count cpu next ∧
          if machine.tape.current = 0 then OnCell frame (offset + 11 + inner + 11) machine next
          else OnCell frame (offset + 11) machine next := by
      rintro machine cpu (h | h)
      · obtain ⟨next, hleads, hnext⟩ := leads_jz h hhead
        rw [width_append, ← Nat.add_assoc] at hnext
        exact ⟨2, next, Nat.two_pos, hleads, hnext⟩
      · obtain ⟨next, hleads, hnext⟩ := leads_jnz h hend
        exact ⟨2, next, Nat.two_pos, hleads, hnext⟩
    refine ⟨fun machine cpu => OnCell frame offset machine cpu ∨
      OnCell frame (offset + 11 + inner) machine cpu, OnCell frame (offset + 11),
      OnCell frame (offset + 11 + inner + 11), fun _ _ => .inl, htests,
      ihbody hreach.1 hbody fun _ _ => .inr, ?_⟩
    rw [hwidth] at hrest
    refine ihrest hreach.2 hrest fun machine cpu h => hbehind machine cpu ?_
    rw [Block.lines, width_append, ← Nat.add_assoc, hwidth]
    exact h

end X86

end TapeLang

import TapeLang.Proofs.Native.Emission
import TapeLang.Proofs.Native.Simulation

/-!
# Correctness of generated code

Generated code as its caller sees it. `X86.Cpu.Enters` says what a caller has to see to before it
jumps to the code: the code is in memory, and the code, the tape and the part of the stack that the
code uses do not overlap. `X86.Cpu.Reports` says what the caller finds when the code has returned.

* `X86.leads_prologue`, `X86.returned_epilogue`: the two ends of a call.
* `X86.Leads.of_after`: a run of the code goes where it has been shown to lead.
* `templateCode_correct`: the code does what the structured execution of the ops does, and leaves
  all memory but the tape and its part of the stack alone.
-/

namespace TapeLang

namespace X86

section Words

variable {memory memory' : Word → UInt8} {address other : Word}

/-- Addresses that are not too large differ as their numbers do. -/
theorem ofNat_add_ne {first second count more : Nat} (h : first + count ≠ second + more)
    (hfirst : first + count < 0x10000000000000000)
    (hsecond : second + more < 0x10000000000000000) :
    BitVec.ofNat 64 first + BitVec.ofNat 64 count ≠
      BitVec.ofNat 64 second + BitVec.ofNat 64 more := by
  intro heq
  have hnat := congrArg BitVec.toNat heq
  rw [← BitVec.ofNat_add, ← BitVec.ofNat_add, BitVec.toNat_ofNat, BitVec.toNat_ofNat,
    Nat.mod_eq_of_lt hfirst, Nat.mod_eq_of_lt hsecond] at hnat
  exact h hnat

/-- Addresses at different distances from a common one differ. -/
theorem add_ofNat_ne (address : Word) {count more : Nat} (h : count ≠ more)
    (hcount : count < 0x10000000000000000) (hmore : more < 0x10000000000000000) :
    address + BitVec.ofNat 64 count ≠ address + BitVec.ofNat 64 more := by
  intro heq
  have hnat := congrArg BitVec.toNat ((BitVec.add_right_inj address).mp heq)
  rw [BitVec.toNat_ofNat, BitVec.toNat_ofNat, Nat.mod_eq_of_lt hcount,
    Nat.mod_eq_of_lt hmore] at hnat
  exact h hnat

/-- The words of two memories that agree. -/
theorem wordAt_congr
    (h : ∀ k < 8, memory (address + BitVec.ofNat 64 k) = memory' (address + BitVec.ofNat 64 k)) :
    wordAt memory address = wordAt memory' address := by
  rw [wordAt, wordAt, bytesAt_congr h]

/-- The bytes outside a word that is changed are kept. -/
theorem setWord_of_ne (h : ∀ k < 8, other ≠ address + BitVec.ofNat 64 k)
    (memory : Word → UInt8) (word : Word) : setWord memory address word other = memory other :=
  setBytes_of_ne fun k hk => h k (by rwa [length_toLittleEndian] at hk)

end Words

namespace Cpu

variable {cpu : Cpu}

/-- The machine in front of generated code: its tape is in memory from `rdi` on, and the pointer
stands on the first cell. -/
def machine (cpu : Cpu) : Machine where
  tape := ⟨Vector.ofFn fun index => cpu.memory (cell cpu.rdi index), Tape.origin⟩
  input := cpu.input
  output := cpu.output

/-- The address of the part of the stack that generated code uses. It keeps two registers there,
below the address to return to. -/
def bottom (cpu : Cpu) : Word :=
  cpu.rsp - 16

/-- The memory in which the two registers have been put on the stack. -/
def saved (cpu : Cpu) : Word → UInt8 :=
  setWord (setWord cpu.memory (cpu.bottom + BitVec.ofNat 64 8) cpu.rbx) cpu.bottom cpu.r13

/-- The processor is about to execute code at its instruction pointer that has been called with the
address of a tape. -/
structure Enters (cpu : Cpu) (code : List UInt8) : Prop where
  /-- The code is in memory. -/
  loaded : bytesAt cpu.memory cpu.rip code.length = code
  /-- It is not on the tape. -/
  code_tape : ∀ offset < code.length, ∀ index,
    cpu.rip + BitVec.ofNat 64 offset ≠ cell cpu.rdi index
  /-- It is not on the stack. -/
  code_stack : ∀ offset < code.length, ∀ count < 16,
    cpu.rip + BitVec.ofNat 64 offset ≠ cpu.bottom + BitVec.ofNat 64 count
  /-- The stack, with the address to return to, is not on the tape. -/
  stack_tape : ∀ count < 24, ∀ index, cpu.bottom + BitVec.ofNat 64 count ≠ cell cpu.rdi index

/-- The code that a processor was about to execute has returned with a word and a machine. -/
structure Leaves (cpu final : Cpu) (word : Word) (machine : Machine) : Prop where
  rip : final.rip = cpu.top
  rax : final.rax = word
  rbx : final.rbx = cpu.rbx
  r13 : final.r13 = cpu.r13
  rsp : final.rsp = cpu.rsp + 8
  /-- The cells are on the tape. -/
  cells : ∀ index, final.memory (cell cpu.rdi index) = machine.tape.cells.get index
  /-- The rest of the memory is as it was. -/
  rest : ∀ address, (∀ index, address ≠ cell cpu.rdi index) →
    (∀ count < 16, address ≠ cpu.bottom + BitVec.ofNat 64 count) →
    final.memory address = cpu.memory address
  input : final.input = machine.input
  output : final.output = machine.output

/-- The code that a processor was about to execute has returned with what an outcome says: the
index of the current cell, or an index that is not on the tape, as an unsigned number. -/
def Reports (cpu final : Cpu) : Outcome Machine → Prop
  | .done machine => cpu.Leaves final (BitVec.ofNat 64 machine.tape.pointer) machine
  | .failed error machine => ∃ index : Int, error = .outOfRange index ∧
      tapeSize ≤ (BitVec.ofInt 64 index).toNat ∧ cpu.Leaves final (BitVec.ofInt 64 index) machine
  | .unfinished => False

/-- The cells of the machine in front of generated code. -/
theorem get_cells_machine (cpu : Cpu) (index : Fin tapeSize) :
    cpu.machine.tape.cells.get index = cpu.memory (cell cpu.rdi index) :=
  Vector.getElem_ofFn index.isLt

/-- The stack ends where its used part does. -/
theorem bottom_add (cpu : Cpu) (count : Nat) :
    cpu.rsp + BitVec.ofNat 64 count = cpu.bottom + BitVec.ofNat 64 (16 + count) := by
  rw [← add_ofNat_add,
    show cpu.bottom + BitVec.ofNat 64 16 = cpu.rsp from BitVec.sub_add_cancel _ _]

/-- The rest of the memory is as it was. -/
theorem saved_of_ne {address : Word}
    (h : ∀ count < 16, address ≠ cpu.bottom + BitVec.ofNat 64 count) :
    cpu.saved address = cpu.memory address := by
  have hr13 : cpu.saved address =
      setWord cpu.memory (cpu.bottom + BitVec.ofNat 64 8) cpu.rbx address :=
    setWord_of_ne (fun k hk => h k (by omega)) _ _
  have hrbx : setWord cpu.memory (cpu.bottom + BitVec.ofNat 64 8) cpu.rbx address =
      cpu.memory address := by
    refine setWord_of_ne (fun k hk => ?_) _ _
    rw [add_ofNat_add]
    exact h (8 + k) (by omega)
  rw [hr13, hrbx]

/-- The register that was put on the stack last. -/
theorem wordAt_saved_bottom (cpu : Cpu) : wordAt cpu.saved cpu.bottom = cpu.r13 :=
  wordAt_setWord _ _ _

/-- The register that was put on the stack first. -/
theorem wordAt_saved_add_eight (cpu : Cpu) :
    wordAt cpu.saved (cpu.bottom + BitVec.ofNat 64 8) = cpu.rbx := by
  have hkept : wordAt cpu.saved (cpu.bottom + BitVec.ofNat 64 8) =
      wordAt (setWord cpu.memory (cpu.bottom + BitVec.ofNat 64 8) cpu.rbx)
        (cpu.bottom + BitVec.ofNat 64 8) := by
    refine wordAt_congr fun k hk => setWord_of_ne (fun other hother => ?_) _ _
    rw [add_ofNat_add]
    exact add_ofNat_ne _ (by omega) (by omega) (by omega)
  rw [hkept, wordAt_setWord]

/-- The address to return to is kept. -/
theorem wordAt_saved_rsp (cpu : Cpu) : wordAt cpu.saved cpu.rsp = cpu.top := by
  refine wordAt_congr fun k hk => saved_of_ne fun count hcount => ?_
  rw [bottom_add]
  exact add_ofNat_ne _ (by omega) (by omega) (by omega)

end Cpu

/-- The frame in which code that has been called runs. -/
def Cpu.Enters.frame {cpu : Cpu} {listing : List Insn} (h : cpu.Enters (assemble listing)) :
    Frame listing where
  base := cpu.rip
  tape := cpu.rdi
  stack := cpu.bottom
  memory := cpu.saved
  loaded := by
    refine Eq.trans (bytesAt_congr fun offset hoffset => ?_) h.loaded
    exact Cpu.saved_of_ne (h.code_stack offset hoffset)
  apart := h.code_tape

variable {listing : List Insn} {p : Cpu → Prop} {steps more exit : Nat}
  {cpu last final final' mid : Cpu} {index : Word} {machine : Machine}

/-- The prologue saves the two registers and turns to the first cell. -/
theorem leads_prologue (h : cpu.Enters (assemble listing))
    (hlaid : Laid listing 0 (prologue.map .insn)) :
    ∃ next, Leads h.frame.Safe 4 cpu next ∧ OnCell h.frame 8 cpu.machine next := by
  obtain ⟨⟨_, hinsnPush, hpush⟩, ⟨_, hinsnPush', hpush'⟩, ⟨_, hinsnTape, htape⟩,
    ⟨_, hinsnOrigin, horigin⟩, -⟩ := hlaid
  cases hinsnPush
  cases hinsnPush'
  cases hinsnTape
  cases hinsnOrigin
  have hbelow : cpu.rsp - 8 = cpu.bottom + BitVec.ofNat 64 8 := by
    rw [Cpu.bottom]
    bv_omega
  have hbottom : cpu.bottom + BitVec.ofNat 64 8 - 8 = cpu.bottom := BitVec.add_sub_cancel _ _
  -- the states between the four instructions: two registers are saved, the address of the tape is
  -- taken over, and the index is set to zero
  let first : Cpu :=
    { cpu.advance 1 with
      rsp := cpu.bottom + BitVec.ofNat 64 8
      memory := setWord cpu.memory (cpu.bottom + BitVec.ofNat 64 8) cpu.rbx }
  let second : Cpu := { first.advance 2 with rsp := cpu.bottom, memory := cpu.saved }
  let third : Cpu := { second.advance 3 with r13 := cpu.rdi }
  let fourth : Cpu := { third.advance 2 with rbx := 0, zero := true, carry := false }
  have hloaded : bytesAt first.memory cpu.rip (assemble listing).length = assemble listing := by
    refine Eq.trans (bytesAt_congr fun offset hoffset => setWord_of_ne (fun k hk => ?_) _ _)
      h.loaded
    rw [add_ofNat_add]
    exact h.code_stack offset hoffset (8 + k) (by omega)
  have leadsFirst : Leads h.frame.Safe 1 cpu first := by
    refine hpush.leads h.loaded (BitVec.add_zero _).symm (.inl rfl) ?_
    rw [Cpu.execute, Cpu.push]
    show Transition.next { cpu.advance 1 with
      rsp := cpu.rsp - 8, memory := setWord cpu.memory (cpu.rsp - 8) cpu.rbx } = _
    rw [hbelow]
  have leadsSecond : Leads h.frame.Safe 1 first second := by
    refine hpush'.leads hloaded rfl (.inl rfl) ?_
    rw [Cpu.execute, Cpu.push]
    show Transition.next { first.advance 2 with
      rsp := cpu.bottom + BitVec.ofNat 64 8 - 8
      memory := setWord first.memory (cpu.bottom + BitVec.ofNat 64 8 - 8) cpu.r13 } = _
    rw [hbottom]
    rfl
  have leadsThird : Leads h.frame.Safe 1 second third :=
    htape.leads h.frame.loaded (add_ofNat_add _ 1 2) (.inl rfl) rfl
  have hthird : Stands h.frame 6 cpu.rbx cpu.machine third :=
    { rip := by
        show cpu.rip + BitVec.ofNat 64 1 + BitVec.ofNat 64 2 + BitVec.ofNat 64 3 = _
        rw [add_ofNat_add, add_ofNat_add]
        rfl
      rbx := rfl
      r13 := rfl
      rsp := rfl
      cells := fun index => by
        rw [Cpu.get_cells_machine]
        exact Cpu.saved_of_ne fun count hcount =>
          (h.stack_tape count (by omega) index).symm
      rest := fun _ _ => rfl
      input := rfl
      output := rfl }
  have leadsFourth : Leads h.frame.Safe 1 third fourth :=
    hthird.leads horigin (.inl rfl) rfl
  have hfourth : OnCell h.frame 8 cpu.machine fourth := { hthird.advance 2 with rbx := rfl }
  exact ⟨fourth, leadsFirst.trans (leadsSecond.trans (leadsThird.trans leadsFourth)), hfourth⟩

/-- The stack is not on the tape, so that the code leaves alone what the prologue has saved there,
and the address to return to. -/
theorem saved_of_stands (h : cpu.Enters (assemble listing))
    (hstands : Stands h.frame exit index machine mid) :
    wordAt mid.memory cpu.bottom = cpu.r13 ∧
      wordAt mid.memory (cpu.bottom + BitVec.ofNat 64 8) = cpu.rbx ∧
      wordAt mid.memory cpu.rsp = cpu.top := by
  have hword : ∀ count ≤ 16, wordAt mid.memory (cpu.bottom + BitVec.ofNat 64 count) =
      wordAt cpu.saved (cpu.bottom + BitVec.ofNat 64 count) := by
    intro count hcount
    refine wordAt_congr fun k hk => ?_
    rw [add_ofNat_add]
    exact hstands.rest _ (h.stack_tape (count + k) (by omega))
  refine ⟨?_, ?_, ?_⟩
  · have hkept := hword 0 (by omega)
    rw [BitVec.add_zero] at hkept
    rw [hkept, Cpu.wordAt_saved_bottom]
  · rw [hword 8 (by omega), Cpu.wordAt_saved_add_eight]
  · have hkept := hword 16 (by omega)
    rw [show cpu.bottom + BitVec.ofNat 64 16 = cpu.rsp from BitVec.sub_add_cancel _ _] at hkept
    rw [hkept, Cpu.wordAt_saved_rsp]

/-- The epilogue hands over the index and returns with the registers as they were. -/
theorem returned_epilogue (h : cpu.Enters (assemble listing))
    (hlaid : Laid listing exit (epilogue.map .insn))
    (hstands : Stands h.frame exit index machine mid) :
    ∃ last final, Leads h.frame.Safe 3 mid last ∧ h.frame.Safe last ∧
      last.step = .returned final ∧ cpu.Leaves final index machine := by
  obtain ⟨⟨_, hinsnIndex, hindex⟩, ⟨_, hinsnPop, hpop⟩, ⟨_, hinsnPop', hpop'⟩,
    ⟨_, hinsnRet, hret⟩, -⟩ := hlaid
  cases hinsnIndex
  cases hinsnPop
  cases hinsnPop'
  cases hinsnRet
  obtain ⟨hr13, hrbx, hrip⟩ := saved_of_stands h hstands
  have hrsp : mid.rsp = cpu.bottom := hstands.rsp
  have htop : cpu.bottom + BitVec.ofNat 64 8 + 8 = cpu.rsp := by
    rw [Cpu.bottom]
    bv_omega
  let first : Cpu := { mid.advance 3 with rax := mid.rbx }
  let second : Cpu :=
    { first.advance 2 with rsp := cpu.bottom + BitVec.ofNat 64 8, r13 := cpu.r13 }
  let third : Cpu := { second.advance 1 with rsp := cpu.rsp, rbx := cpu.rbx }
  let final : Cpu := { third.advance 1 with rsp := cpu.rsp + 8, rip := cpu.top }
  have leadsFirst : Leads h.frame.Safe 1 mid first :=
    hstands.leads hindex (.inl rfl) rfl
  have hfirst : Stands h.frame (exit + 3) index machine first := { hstands.advance 3 with }
  have leadsSecond : Leads h.frame.Safe 1 first second := by
    refine hfirst.leads hpop (.inl rfl) ?_
    show Transition.next { first.advance 2 with
      rsp := mid.rsp + 8, r13 := wordAt mid.memory mid.rsp } = _
    rw [hrsp, hr13]
    rfl
  have leadsThird : Leads h.frame.Safe 1 second third := by
    refine hpop'.leads hfirst.loaded (hfirst.advance 2).rip (.inl rfl) ?_
    show Transition.next { second.advance 1 with
      rsp := cpu.bottom + BitVec.ofNat 64 8 + 8
      rbx := wordAt mid.memory (cpu.bottom + BitVec.ofNat 64 8) } = _
    rw [htop, hrbx]
  have hripThird : third.rip = cpu.rip + BitVec.ofNat 64 (exit + 6) :=
    ((hfirst.advance 2).advance 1).rip
  have hfetch : third.fetch = some .ret := hret.fetch hfirst.loaded hripThird
  refine ⟨third, final, leadsFirst.trans (leadsSecond.trans leadsThird),
    ⟨_, _, hret, hripThird, hfetch, fun _ hnone => by cases hnone⟩, ?_, ?_⟩
  · rw [Cpu.step_of_fetch hfetch]
    show Transition.returned { third.advance 1 with
      rsp := cpu.rsp + 8, rip := wordAt mid.memory cpu.rsp } = _
    rw [hrip]
  · exact
      { rip := rfl
        rax := hstands.rbx
        rbx := rfl
        r13 := rfl
        rsp := rfl
        cells := hstands.cells
        rest := fun address htape hstack =>
          (hstands.rest address htape).trans (Cpu.saved_of_ne hstack)
        input := hstands.input
        output := hstands.output }

/-- A run of the code goes where it has been shown to lead. -/
theorem Leads.of_after (h : Leads p steps cpu last) (hp : p last)
    (hlast : last.step = .returned final) (hmid : cpu.after more = some mid) :
    p mid ∧ ((∃ next, mid.step = .next next) ∨ mid.step = .returned final) := by
  rcases Nat.lt_trichotomy more steps with hlt | heq | hgt
  · obtain ⟨hsafe, hnext⟩ := h.of_after_lt hlt hmid
    exact ⟨hsafe, .inl hnext⟩
  · rw [heq, h.after_eq] at hmid
    cases hmid
    exact ⟨hp, .inr hlast⟩
  · obtain ⟨k, rfl⟩ : ∃ k, more = steps + (k + 1) := ⟨more - steps - 1, by omega⟩
    rw [Cpu.after_add, h.after_eq, Option.bind_some, Cpu.after, hlast] at hmid
    cases hmid

/-- What comes to the exit returns. -/
theorem Comes.returns {slack : Nat} {outcome : Outcome Machine}
    (hentry : cpu.Enters (assemble listing)) (hlaid : Laid listing exit (epilogue.map .insn))
    (h : Comes hentry.frame exit exit slack cpu outcome) (hend : outcome.Terminates) :
    ∃ steps last final, Leads hentry.frame.Safe steps cpu last ∧ hentry.frame.Safe last ∧
      last.step = .returned final ∧ cpu.Reports final outcome := by
  cases outcome with
  | done machine =>
    obtain ⟨steps, next, hleads, hnext⟩ := h
    obtain ⟨last, final, hlast, hsafe, hstep, hleaves⟩ := returned_epilogue hentry hlaid hnext
    exact ⟨_, last, final, hleads.trans hlast, hsafe, hstep, hleaves⟩
  | failed error machine =>
    obtain ⟨index, herror, hrange, hsmall, steps, next, hleads, hnext⟩ := h
    obtain ⟨last, final, hlast, hsafe, hstep, hleaves⟩ := returned_epilogue hentry hlaid hnext
    -- the caller reads the index as an unsigned number
    have hlarge : tapeSize ≤ (BitVec.ofInt 64 index).toNat := by
      rw [BitVec.toNat_ofInt]
      simp only [tapeSize, Nat.reducePow] at hrange ⊢
      omega
    exact ⟨_, last, final, hleads.trans hlast, hsafe, hstep, index, herror, hlarge, hleaves⟩
  | unfinished => exact absurd rfl hend

section Calls

variable {descriptors : Descriptors} {block : Block Op}

/-- The parts of the code for a block. -/
theorem laid_of_listing (h : X86.listing descriptors block = .ok listing) :
    Laid listing 0 (prologue.map .insn) ∧
      Laid listing 8 (block.lines descriptors (exitsOf descriptors block) 8) ∧
      Laid listing (exitsOf descriptors block).exit (epilogue.map .insn) ∧
      Laid listing (exitsOf descriptors block).fault
        [.insn .movRbxRcx, .branch .jmp (exitsOf descriptors block).exit] := by
  have hexit := exit_exitsOf descriptors block
  have hbehind : (exitsOf descriptors block).fault =
      8 + width (block.lines descriptors (exitsOf descriptors block) 8) + 7 := by
    rw [← hexit]
    rfl
  have hlaid := laid_of_insnsFrom [] [] h
  rw [List.nil_append, List.append_nil] at hlaid
  obtain ⟨hrest, hfault⟩ := laid_append.mp hlaid
  obtain ⟨hrest, hepilogue⟩ := laid_append.mp hrest
  obtain ⟨hprologue, hblock⟩ := laid_append.mp hrest
  rw [width_append, show (assemble []).length = 0 from rfl, Nat.zero_add] at hepilogue
  rw [width_append, width_append, show (assemble []).length = 0 from rfl, Nat.zero_add] at hfault
  refine ⟨hprologue, hblock, ?_, ?_⟩
  · rw [hexit]
    exact hepilogue
  · rw [hbehind]
    exact hfault

/-- The code for a block gets to its exit when the execution of the block ends. -/
theorem comes_call (hfit : descriptors.Fit) (hreach : block.All Op.InReach)
    (hlisting : X86.listing descriptors block = .ok listing)
    (hentry : cpu.Enters (assemble listing)) (fuel : Nat) :
    Comes hentry.frame (exitsOf descriptors block).exit (exitsOf descriptors block).exit
      (fuel - block.size) cpu (block.exec (Op.actNative descriptors) fuel cpu.machine) := by
  obtain ⟨hprologue, hblock, -, hfault⟩ := laid_of_listing hlisting
  obtain ⟨next, hleads, hnext⟩ := leads_prologue hentry hprologue
  have hexit : ∀ machine cpu,
      OnCell hentry.frame (8 + width (block.lines descriptors (exitsOf descriptors block) 8))
        machine cpu → OnCell hentry.frame (exitsOf descriptors block).exit machine cpu := by
    rw [← exit_exitsOf]
    exact fun _ _ => id
  exact hleads.comes
    (Steps.comes_exec (implements_lines hfit hfault hreach hblock hexit) hnext fuel)

end Calls

/-- The code that is generated for ops does what their structured execution does. All of its
instructions are among those of the listing, and the memory they work on is the tape. It returns if
and only if the execution terminates, and then reports how that ends. -/
theorem templateCode_correct {descriptors : Descriptors} {ops : Array Op} {bytes : Array UInt8}
    (hfit : descriptors.Fit) (hcode : templateCode descriptors ops = .ok bytes)
    (hentry : cpu.Enters bytes.toList) :
    ∃ block insns, Block.ofOps ops = some block ∧ X86.listing descriptors block = .ok insns ∧
      bytes.toList = assemble insns ∧
      (∀ steps reached, cpu.after steps = some reached →
        reached.Safe insns cpu.rip cpu.rdi ∧ reached.step ≠ .undefined) ∧
      ((∃ final, cpu.Returns final) ↔
        ∃ fuel, (block.exec (Op.actNative descriptors) fuel cpu.machine).Terminates) ∧
      ∀ final fuel, cpu.Returns final →
        (block.exec (Op.actNative descriptors) fuel cpu.machine).Terminates →
        cpu.Reports final (block.exec (Op.actNative descriptors) fuel cpu.machine) := by
  obtain ⟨block, insns, hblock, hreach, hlisting, hbytes⟩ := listing_of_templateCode hcode
  rw [hbytes] at hentry
  have hcomes := comes_call hfit hreach hlisting hentry
  have hreturns := fun fuel =>
    Comes.returns hentry (laid_of_listing hlisting).2.2.1 (hcomes fuel)
  refine ⟨block, insns, hblock, hlisting, hbytes, ?_⟩
  by_cases hend : ∃ fuel, (block.exec (Op.actNative descriptors) fuel cpu.machine).Terminates
  · -- The code returns, in one way only, and all its states are on the way there.
    obtain ⟨fuel, hterminates⟩ := hend
    obtain ⟨steps, last, final, hleads, hsafe, hlast, -⟩ := hreturns fuel hterminates
    refine ⟨fun more reached hreached => ?_, ⟨fun _ => ⟨fuel, hterminates⟩, fun _ => ?_⟩, ?_⟩
    · obtain ⟨hreachedSafe, ⟨next, hstep⟩ | hstep⟩ := hleads.of_after hsafe hlast hreached
      · exact ⟨hreachedSafe, by rw [hstep]; exact Transition.noConfusion⟩
      · exact ⟨hreachedSafe, by rw [hstep]; exact Transition.noConfusion⟩
    · exact ⟨final, steps, last, hleads.after_eq, hlast⟩
    · rintro other fuel' ⟨more, mid, hmid, hstep⟩ hterminates'
      obtain ⟨steps', last', final', hleads', hsafe', hlast', hreports⟩ :=
        hreturns fuel' hterminates'
      obtain ⟨-, ⟨next, hnext⟩ | hfinal⟩ := hleads'.of_after hsafe' hlast' hmid
      · rw [hnext] at hstep
        cases hstep
      · rw [hfinal] at hstep
        cases hstep
        exact hreports
  · -- The code takes more steps than any number, so that it does not return.
    have hlong : ∀ count, ∃ steps next, count < steps ∧ Leads hentry.frame.Safe steps cpu next := by
      intro count
      have hunfinished : block.exec (Op.actNative descriptors) (count + 1 + block.size)
          cpu.machine = .unfinished :=
        Classical.byContradiction fun hne => hend ⟨_, hne⟩
      have hcount := hcomes (count + 1 + block.size)
      rw [hunfinished, Nat.add_sub_cancel] at hcount
      exact hcount
    have hgoes : ∀ steps reached, cpu.after steps = some reached →
        reached.Safe insns cpu.rip cpu.rdi ∧ ∃ next, reached.step = .next next := by
      intro steps reached hreached
      obtain ⟨more, next, hmore, hleads⟩ := hlong steps
      exact hleads.of_after_lt hmore hreached
    refine ⟨fun steps reached hreached => ?_, ⟨?_, fun hfuel => absurd hfuel hend⟩, ?_⟩
    · obtain ⟨hsafe, next, hstep⟩ := hgoes steps reached hreached
      exact ⟨hsafe, by rw [hstep]; exact Transition.noConfusion⟩
    · rintro ⟨final, steps, last, hlast, hstep⟩
      obtain ⟨-, next, hnext⟩ := hgoes steps last hlast
      rw [hnext] at hstep
      cases hstep
    · intro final fuel _ hterminates
      exact absurd ⟨fuel, hterminates⟩ hend

/-- A processor that has called code at `0x20000` with a tape at `0` and a stack below `0x10000`. -/
def called (code : List UInt8) : Cpu where
  rip := 0x20000
  rax := 0
  rbx := 0
  rcx := 0
  rdx := 0
  rsi := 0
  rdi := 0
  rsp := 0x10000
  r11 := 0
  r13 := 0
  zero := false
  carry := false
  memory := setBytes (fun _ => 0) 0x20000 code
  input := .ofBytes []
  output := .unlimited
  scratch := fun _ => ⟨0, 0, 0⟩

/-- Code that is not too long can be called in this way. -/
theorem enters_called {code : List UInt8} (h : code.length ≤ 0x10000) :
    (called code).Enters code := by
  have hbottom : (called code).bottom = BitVec.ofNat 64 0xFFF0 := by
    show (0x10000 - 16 : Word) = BitVec.ofNat 64 0xFFF0
    decide
  have hcell : ∀ index : Fin tapeSize, 0 + (index : Nat) < 0x7530 := fun index => by
    rw [Nat.zero_add]
    exact index.isLt
  have hcode : ∀ offset < code.length, 0x20000 + offset < 0x30000 := by omega
  have hstack : ∀ count < 24, 0xFFF0 + count < 0x10008 := by omega
  -- code, tape and stack have each a part of the memory, so that their addresses differ
  refine ⟨bytesAt_setBytes _ _ _ (by omega), ?_, ?_, ?_⟩
  · intro offset hoffset index
    have hlt := hcode offset hoffset
    have hlt' := hcell index
    have hne : 0x20000 + offset ≠ 0 + index := by omega
    exact ofNat_add_ne hne (Nat.lt_trans hlt (by decide)) (Nat.lt_trans hlt' (by decide))
  · intro offset hoffset count hcount
    have hlt := hcode offset hoffset
    have hlt' := hstack count (by omega)
    have hne : 0x20000 + offset ≠ 0xFFF0 + count := by omega
    rw [hbottom]
    exact ofNat_add_ne hne (Nat.lt_trans hlt (by decide)) (Nat.lt_trans hlt' (by decide))
  · intro count hcount index
    have hlt := hstack count hcount
    have hlt' := hcell index
    have hne : 0xFFF0 + count ≠ 0 + index := by omega
    rw [hbottom]
    exact ofNat_add_ne hne (Nat.lt_trans hlt (by decide)) (Nat.lt_trans hlt' (by decide))

/-- A move to the left of the first cell is reported as the index before it. -/
theorem templateCode_correct_moveLeft :
    ∃ bytes, templateCode {} #[.backward 1] = .ok bytes ∧
      (called bytes.toList).Enters bytes.toList ∧
      ∃ final, (called bytes.toList).Returns final ∧ final.rax = BitVec.ofInt 64 (-1) := by
  have hfit : Descriptors.Fit {} := ⟨by decide, by decide⟩
  obtain ⟨bytes, hcode, hlength⟩ :
      ∃ bytes, templateCode {} #[.backward 1] = .ok bytes ∧ bytes.toList.length = 43 :=
    ⟨_, rfl, rfl⟩
  have henters : (called bytes.toList).Enters bytes.toList := enters_called (by omega)
  obtain ⟨block, insns, hblock, -, -, -, hreturns, hreports⟩ :=
    templateCode_correct hfit hcode henters
  cases hblock
  have hexec : Block.exec (Op.actNative {}) 2 (.op (.backward 1) .done)
      (called bytes.toList).machine = .failed (.outOfRange (-1)) (called bytes.toList).machine :=
    rfl
  have hterminates : (Block.exec (Op.actNative {}) 2 (.op (.backward 1) .done)
      (called bytes.toList).machine).Terminates := by
    rw [hexec]
    rintro ⟨⟩
  obtain ⟨final, hfinal⟩ := hreturns.mpr ⟨2, hterminates⟩
  have hreport := hreports final 2 hfinal hterminates
  rw [hexec] at hreport
  obtain ⟨index, hindex, -, hleaves⟩ := hreport
  cases hindex
  exact ⟨bytes, hcode, henters, final, hfinal, hleaves.rax⟩

end X86

end TapeLang

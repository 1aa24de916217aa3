import TapeLang.Proofs.Native.Correctness
import TapeLang.Proofs.Native.IrSimulation

/-!
# Calls of native code

What the caller of native code makes of the word that it returns: an index of the tape is where the
data pointer is put, and any other word is an index that is not on the tape. Code from both
generators is followed to its return here.

* `Machine.returned`: what the caller makes of what it gets back.
* `X86.callEnds_iff`: machine code does what the call of its block does.
* `Ir.callEnds_iff`: so does a function in intermediate code.
-/

namespace TapeLang

/-- What the caller of native code makes of the word that the code has returned, and of the tape,
the input and the output that it has left. -/
def Machine.returned (machine : Machine) (word : BitVec 64) (cells : Vector UInt8 tapeSize)
    (input : Input) (output : Output) : Outcome Machine :=
  if h : word.toNat < tapeSize then .done ⟨⟨cells, ⟨word.toNat, h⟩⟩, input, output⟩
  else .failed (.outOfRange word.toInt) ⟨⟨cells, machine.tape.pointer⟩, input, output⟩

/-- A machine without its parts is put together again. -/
theorem Machine.returned_pointer (machine final : Machine) :
    machine.returned (BitVec.ofNat 64 final.tape.pointer) final.tape.cells final.input
      final.output = .done final := by
  have hpointer := final.tape.pointer.isLt
  have hword : (BitVec.ofNat 64 final.tape.pointer).toNat = final.tape.pointer := by
    rw [BitVec.toNat_ofNat]
    simp only [tapeSize] at hpointer
    omega
  rw [returned, dif_pos (by rw [hword]; exact hpointer)]
  simp only [hword, Fin.eta]

/-- An index that is not on the tape is reported, and the pointer is where it was. -/
theorem Machine.returned_index (machine final : Machine) {index : Int}
    (hrange : ¬ (0 ≤ index ∧ index < tapeSize)) (hsmall : index.natAbs < 0x100000000) :
    machine.returned (BitVec.ofInt 64 index) final.tape.cells final.input final.output =
      (Outcome.failed (.outOfRange index) final).afterCall machine.tape.pointer := by
  -- a negative index is a large word
  have hlarge : ¬ (BitVec.ofInt 64 index).toNat < tapeSize := by
    rw [BitVec.toNat_ofInt]
    simp only [tapeSize, Nat.reducePow] at hrange ⊢
    omega
  have hword : (BitVec.ofInt 64 index).toInt = index :=
    BitVec.toInt_ofInt_eq_self (by decide) (by omega) (by omega)
  rw [returned, dif_neg hlarge, hword]
  rfl

namespace X86

/-- A call of the code that a processor is about to execute ends in some way for its caller. -/
def Cpu.CallEnds (cpu : Cpu) (machine : Machine) (outcome : Outcome Machine) : Prop :=
  ∃ final, cpu.Returns final ∧
    machine.returned final.rax (Vector.ofFn fun index => final.memory (cell cpu.rdi index))
      final.input final.output = outcome

/-- The code is about to return, which ends the call in some way for its caller. -/
def Stops {listing : List Insn} (frame : Frame listing) (machine : Machine) (last : Cpu)
    (outcome : Outcome Machine) : Prop :=
  frame.Safe last ∧ ∃ final, last.step = .returned final ∧
    machine.returned final.rax (Vector.ofFn fun index => final.memory (cell frame.tape index))
      final.input final.output = outcome

/-- What the epilogue hands over is what the caller gets. -/
theorem exists_stops {listing : List Insn} {cpu mid : Cpu} {exit : Nat} {word : Word}
    {machine reached : Machine} (hentry : cpu.Enters (assemble listing))
    (hlaid : Laid listing exit (epilogue.map .insn))
    (hstands : Stands hentry.frame exit word reached mid) :
    ∃ count last, hentry.frame.steps.Leads count mid last ∧ Stops hentry.frame machine last
      (machine.returned word reached.tape.cells reached.input reached.output) := by
  obtain ⟨last, final, hleads, hsafe, hstep, hleaves⟩ := returned_epilogue hentry hlaid hstands
  have hcells : (Vector.ofFn fun index => final.memory (cell hentry.frame.tape index)) =
      reached.tape.cells := by
    refine Vector.ext fun position hposition => ?_
    rw [Vector.getElem_ofFn]
    exact hleaves.cells ⟨position, hposition⟩
  refine ⟨3, last, hleads, hsafe, final, hstep, ?_⟩
  rw [hcells, hleaves.rax, hleaves.input, hleaves.output]

/-- A call whose code comes to where it stops ends there, and in no other way: every run of the code
passes through that state, and returns there. -/
theorem Stops.callEnds_iff {listing : List Insn} {cpu last : Cpu} {count : Nat} {machine : Machine}
    {outcome : Outcome Machine} {hentry : cpu.Enters (assemble listing)}
    (h : Stops hentry.frame machine last outcome)
    (hleads : hentry.frame.steps.Leads count cpu last) (other : Outcome Machine) :
    cpu.CallEnds machine other ↔ outcome = other := by
  obtain ⟨hsafe, final, hstep, rfl⟩ := h
  constructor
  · rintro ⟨final', ⟨more, mid, hmid, hreturned⟩, rfl⟩
    obtain ⟨-, ⟨next, hnext⟩ | hfinal⟩ := Leads.of_after hleads hsafe hstep hmid
    · rw [hnext] at hreturned
      cases hreturned
    · rw [hfinal] at hreturned
      cases hreturned
      rfl
  · rintro rfl
    exact ⟨final, ⟨count, last, Leads.after_eq hleads, hstep⟩, rfl⟩

/-- A call whose code takes more steps than any number does not end, since code that has returned
takes no further steps. -/
theorem not_callEnds {listing : List Insn} {frame : Frame listing} {cpu : Cpu}
    (hlong : ∀ count, ∃ more next, count < more ∧ frame.steps.Leads more cpu next)
    (machine : Machine) (outcome : Outcome Machine) : ¬ cpu.CallEnds machine outcome := by
  rintro ⟨final, ⟨steps, last, hlast, hstep⟩, -⟩
  obtain ⟨more, next, hmore, hleads⟩ := hlong steps
  obtain ⟨-, next, hnext⟩ := Leads.of_after_lt hleads hmore hlast
  rw [hnext] at hstep
  cases hstep

/-- A call of the machine code for ops ends as the call of the block that they spell does. -/
theorem callEnds_iff {descriptors : Descriptors} {ops : Array Op} {bytes : Array UInt8} {cpu : Cpu}
    {machine : Machine} (hfit : descriptors.Fit) (hcode : templateCode descriptors ops = .ok bytes)
    (hentry : cpu.Enters bytes.toList) (hmachine : cpu.machine = machine.atOrigin) :
    ∃ block, Block.ofOps ops = some block ∧ ∀ outcome, cpu.CallEnds machine outcome ↔
      EndsWith (block.call descriptors · machine) outcome := by
  obtain ⟨block, insns, hblock, hreach, hlisting, hbytes⟩ := listing_of_templateCode hcode
  rw [hbytes] at hentry
  have hepilogue := (laid_of_listing hlisting).2.2.1
  refine ⟨block, hblock, fun outcome => ?_⟩
  simp only [Block.call_eq, ← hmachine]
  have harrives : ∀ reached next,
      OnCell hentry.frame (exitsOf descriptors block).exit reached next →
      ∃ count last, hentry.frame.steps.Leads count next last ∧
        Stops hentry.frame machine last (.done reached) := by
    intro reached next hnext
    rw [← machine.returned_pointer reached]
    exact exists_stops hentry hepilogue hnext
  have hleaves : ∀ (index : Int) reached next, ¬ (0 ≤ index ∧ index < tapeSize) →
      index.natAbs < 0x100000000 → AtExit hentry.frame (exitsOf descriptors block).exit index
        reached next →
      ∃ count last, hentry.frame.steps.Leads count next last ∧ Stops hentry.frame machine last
        ((Outcome.failed (.outOfRange index) reached).afterCall machine.tape.pointer) := by
    intro index reached next hrange hsmall hnext
    rw [← machine.returned_index reached hrange hsmall]
    exact exists_stops hentry hepilogue hnext
  exact Steps.ends_iff_endsWith (comes_call hfit hreach hlisting hentry) harrives hleaves
    (fun _ _ _ hleads hstops => hstops.callEnds_iff hleads)
    (fun hlong => not_callEnds hlong machine) outcome

end X86

namespace Ir

/-- A call of a function with the address of a tape ends in some way for its caller. -/
def Function.CallEnds (function : Function) (base : BitVec 64) (machine : Machine)
    (outcome : Outcome Machine) : Prop :=
  ∃ state word final, function.invoke? base machine = some state ∧
    function.Returns state word final ∧
    machine.returned word final.cells final.input final.output = outcome

/-- The function is about to return, which ends the call in some way for its caller. -/
def Stops (frame : Frame) (machine : Machine) (last : State) (outcome : Outcome Machine) : Prop :=
  ∃ word final, frame.function.step last = .returned word final ∧
    machine.returned word final.cells final.input final.output = outcome

variable {frame : Frame} {word : BitVec 64} {machine reached : Machine} {state : State}

/-- What is handed over is what the caller gets. -/
theorem stops_of_delivers (h : Delivers frame word reached state) :
    Stops frame machine state
      (machine.returned word reached.tape.cells reached.input reached.output) := by
  have hline : frame.function.lines.toList[state.line]? = some (.ret Lower.result) :=
    h.line ▸ frame.returns.tail.getElem?_eq
  refine ⟨word, state, ?_, ?_⟩
  · rw [Function.step, hline]
    simp only [h.result]
  · rw [h.cells, h.input, h.output]

/-- A call whose function comes to where it stops ends there, and in no other way. -/
theorem Stops.callEnds_iff {base : BitVec 64} {last : State} {count : Nat}
    {outcome : Outcome Machine} (h : Stops frame machine last outcome)
    (hinvoke : frame.function.invoke? base machine = some state)
    (hleads : frame.steps.Leads count state last) (other : Outcome Machine) :
    frame.function.CallEnds base machine other ↔ outcome = other := by
  obtain ⟨word, final, hstep, rfl⟩ := h
  constructor
  · rintro ⟨state', word', final', hstate, ⟨more, mid, hmid, hreturned⟩, rfl⟩
    obtain rfl := Option.some.inj (hinvoke.symm.trans hstate)
    obtain ⟨rfl, rfl⟩ := Function.eq_of_returned hleads hstep hmid hreturned
    rfl
  · rintro rfl
    exact ⟨state, word, final, hinvoke, ⟨count, last, hleads, hstep⟩, rfl⟩

/-- A call whose function takes more steps than any number does not end. -/
theorem not_callEnds {base : BitVec 64}
    (hinvoke : frame.function.invoke? base machine = some state)
    (hlong : ∀ count, ∃ more next, count < more ∧ frame.steps.Leads more state next)
    (outcome : Outcome Machine) : ¬ frame.function.CallEnds base machine outcome := by
  rintro ⟨state', word, final, hstate, ⟨count, last, hlast, hstep⟩, -⟩
  obtain rfl := Option.some.inj (hinvoke.symm.trans hstate)
  obtain ⟨more, next, hmore, hnext⟩ := hlong count
  obtain ⟨after, hafter⟩ := Function.exists_next_of_after_lt hnext hlast hmore
  rw [hafter] at hstep
  cases hstep

/-- The state in which a function is called. -/
def called (base : BitVec 64) (machine : Machine) : State where
  line := 1
  values := Function.update (fun _ => none) Lower.tape (some (.word base))
  index := none
  base := base
  cells := machine.tape.cells
  input := machine.input
  output := machine.output

/-- The beginning of a function turns to the first cell. -/
theorem leads_called {rest : List Line} (hlaid : frame.function.Laid 1
      (.define ⟨2⟩ (.const .i64 0) :: .setIndex ⟨2⟩ :: rest)) :
    ∃ next, frame.steps.Leads 2 (called frame.base machine) next ∧
      OnCell frame 3 machine.atOrigin next := by
  let zeroed : State :=
    { (called frame.base machine).define ⟨2⟩ (.word 0) with line := 2 }
  have hzeroed : frame.steps.Leads 1 (called frame.base machine) zeroed :=
    leads_execute rfl hlaid rfl
  have htape : zeroed.values Lower.tape = some (.word frame.base) := rfl
  have heffect : zeroed.effect (.setIndex ⟨2⟩) = some { zeroed with index := some 0 } := rfl
  exact ⟨_, frame.steps.trans hzeroed (leads_execute rfl hlaid.tail heffect),
    { line := rfl, index := rfl, tape := htape, base := rfl, cells := rfl, input := rfl
      output := rfl }⟩

/-- A call of the function for ops ends as the call of the block that they spell does. -/
theorem callEnds_iff {descriptors : Descriptors} {ops : Array Op} {function : Function}
    {base : BitVec 64} {machine : Machine} (hfit : descriptors.Fit)
    (hsized : ∀ op ∈ ops.toList, op.Sized)
    (hcode : loweredFunction descriptors ops = .ok function) :
    ∃ block, Block.ofOps ops = some block ∧ ∀ outcome, function.CallEnds base machine outcome ↔
      EndsWith (block.call descriptors · machine) outcome := by
  obtain ⟨block, hblock, hdisplaced, hlines⟩ := lines_of_loweredFunction hcode
  refine ⟨block, hblock, fun outcome => ?_⟩
  simp only [Block.call_eq]
  have hlaid : function.Laid 0 (functionLines descriptors block) := by
    rw [Function.Laid, hlines]
    exact List.prefix_refl _
  -- the lines of the function: its beginning, those of the block, and its end
  obtain ⟨hfront, hfinish⟩ := Function.laid_append.mp hlaid
  obtain ⟨hbegin, hbody⟩ := Function.laid_append.mp hfront
  rw [List.length_append, ← Nat.add_assoc] at hfinish
  let frame : Frame := {
    function, base
    exit := _
    distinct := by
      rw [Function.Distinct, hlines]
      exact nodup_labels_functionLines descriptors block
    returns := hfinish.tail.tail }
  have hall : block.All fun item => item.Displaced ∧ item.Sized :=
    hdisplaced.imp fun item hitem => ⟨hitem.2, hsized item hitem.1⟩
  have hinvoke : function.invoke? base machine = some (called base machine) := by
    rw [Function.invoke?, hlines]
    rfl
  obtain ⟨begun, hleads, hbegun⟩ : ∃ next, frame.steps.Leads 2 (called base machine) next ∧
      OnCell frame 3 machine.atOrigin next := leads_called hbegin.tail
  -- the first three lines do nothing but turn to the first cell, where the block begins
  have hcomes : ∀ fuel, frame.steps.Comes
      (OnCell frame (3 + (block.lowered descriptors 3 2).length)) (Leaves frame)
      (fuel - block.size) (called base machine)
      (block.exec (Op.actNative descriptors) fuel machine.atOrigin) := by
    intro fuel
    have himplements : frame.steps.Implements (Op.actNative descriptors) (Leaves frame)
        (OnCell frame 3) block (OnCell frame (3 + (block.lowered descriptors 3 2).length)) :=
      implements_lowered hfit hall (by decide) hbody fun _ _ => id
    exact (Steps.comes_of_leads hleads (Steps.comes_exec himplements hbegun fuel)).mono
      (Nat.le_add_right _ _)
  have harrives : ∀ reached next,
      OnCell frame (3 + (block.lowered descriptors 3 2).length) reached next →
      ∃ count last, frame.steps.Leads count next last ∧
        Stops frame machine last (.done reached) := by
    intro reached next hnext
    obtain ⟨last, hlast, hdelivers⟩ :=
      leads_finish hnext hfinish (Nat.lt_add_right _ (Nat.succ_pos 2))
    refine ⟨2, last, hlast, ?_⟩
    rw [← machine.returned_pointer reached]
    exact stops_of_delivers hdelivers
  have hleaves : ∀ (index : Int) reached next, ¬ (0 ≤ index ∧ index < tapeSize) →
      index.natAbs < 0x100000000 → Leaves frame index reached next →
      ∃ count last, frame.steps.Leads count next last ∧ Stops frame machine last
        ((Outcome.failed (.outOfRange index) reached).afterCall machine.tape.pointer) := by
    intro index reached next hrange hsmall hnext
    rw [← machine.returned_index reached hrange hsmall]
    exact ⟨0, next, frame.steps.refl next, stops_of_delivers hnext⟩
  exact Steps.ends_iff_endsWith hcomes harrives hleaves
    (fun _ _ _ hleads hstops => hstops.callEnds_iff hinvoke hleads) (not_callEnds hinvoke) outcome

end Ir

end TapeLang

import Mathlib
import TapeLang.Proofs.Native.Calls

/-!
# Native code and the op-stream interpreter

Native code follows the nesting of loops, the op-stream interpreter follows the targets of jumps.
On a stream that is relinked they do the same, with two differences that come from the way native
code is called: it starts at the first cell, wherever the data pointer is, and after a fault the
pointer is put back.

## Main definitions

* `NativeCall`: the ways in which native code for ops is called on a machine.
* `AgreesWith`: how the ends of a call are told from the end of a run of the interpreter.

## Main results

* `NativeCall.ends_iff`: however native code is called, it does what the call of its block does.
* `native_agrees`: native code agrees with the interpreter on the relinked stream.
-/

namespace TapeLang

/-- The ways in which native code for ops is called on a machine, each with the outcomes in which
the call ends. -/
inductive NativeCall (descriptors : Descriptors) (ops : Array Op) (machine : Machine) :
    (Outcome Machine → Prop) → Prop
  /-- A processor enters the machine code of the template generator. -/
  | machineCode {bytes : Array UInt8} {cpu : X86.Cpu}
      (hcode : templateCode descriptors ops = .ok bytes) (hentry : cpu.Enters bytes.toList)
      (hmachine : cpu.machine = machine.atOrigin) :
      NativeCall descriptors ops machine (cpu.CallEnds machine)
  /-- The function that the ops are lowered to is invoked with the address of the tape. -/
  | function {function : Ir.Function} (hcode : loweredFunction descriptors ops = .ok function)
      (base : BitVec 64) : NativeCall descriptors ops machine (function.CallEnds base machine)
  /-- What the template generator delivers is called. -/
  | template {code : TemplateCode} (hcode : TemplateCode.generate descriptors ops = .ok code) :
      NativeCall descriptors ops machine (EndsWith (code.call · machine))
  /-- What the ops are lowered to is called. -/
  | lowered {code : LoweredCode} (hcode : LoweredCode.generate descriptors ops = .ok code) :
      NativeCall descriptors ops machine (EndsWith (code.call · machine))

/-- A call of native code ends if and only if the interpreter does, and in one way only: without an
error where the interpreter comes to its end, and with the index that the interpreter reports where
that leaves the tape, which is the only error. What the call leaves behind is what is seen of the
machine that the interpreter leaves behind, but after an error with the data pointer where it was
before the call. -/
structure AgreesWith (ends : Outcome Machine → Prop) (interpreter : Nat → Outcome Machine)
    (view : Machine → Machine) (pointer : Fin tapeSize) : Prop where
  terminates : (∃ outcome, ends outcome) ↔ Halts interpreter
  done : ∀ final, EndsWith interpreter (.done final) →
    ∀ outcome, ends outcome ↔ outcome = .done (view final)
  failed : ∀ error final, EndsWith interpreter (.failed error final) →
    ∃ index : Int, error = .outOfRange index ∧ ¬ (0 ≤ index ∧ index < tapeSize) ∧
      ∀ outcome, ends outcome ↔
        outcome = .failed (.outOfRange index) ((view final).mapTape ({ · with pointer }))

section Agreement

variable {descriptors : Descriptors} {ops : Array Op} {block : Block Op} {machine : Machine}
  {ends : Outcome Machine → Prop} {outcome : Outcome Machine}

/-- However native code is called, it does what the call of the block does that the ops spell. -/
theorem NativeCall.ends_iff (hfit : descriptors.Fit) (hsized : ∀ op ∈ ops.toList, op.Sized)
    (h : NativeCall descriptors ops machine ends) :
    ∃ block, Block.ofOps ops = some block ∧
      ∀ outcome, ends outcome ↔ EndsWith (block.call descriptors · machine) outcome := by
  cases h with
  | machineCode hcode hentry hmachine => exact X86.callEnds_iff hfit hcode hentry hmachine
  | function hcode base => exact Ir.callEnds_iff hfit hsized hcode
  | template hcode =>
    obtain ⟨-, hblock, rfl⟩ := TemplateCode.generate_eq_ok.mp hcode
    exact ⟨_, hblock, fun _ => Iff.rfl⟩
  | lowered hcode =>
    obtain ⟨-, hblock, rfl⟩ := LoweredCode.generate_eq_ok.mp hcode
    exact ⟨_, hblock, fun _ => Iff.rfl⟩

/-- The interpreter runs a relinked stream as the block that its ops spell is executed. -/
theorem endsWith_run_relinked (h : Block.ofOps ops = some block) :
    EndsWith (Bytecode.run (relinked ops) · machine) outcome ↔
      EndsWith (block.exec Op.act · machine) outcome := by
  have hside : block.All fun op => op.side = none :=
    (Block.spells_of_ofItems? h).all.imp fun _ hop => hop.2
  rw [Bytecode.endsWith_run_iff_exec (toList_relinked h) hside, Block.endsWith_exec_iff 0]

/-- The interpreter ends in one way only. -/
theorem Bytecode.endsWith_run_unique {outcome' : Outcome Machine}
    (h : EndsWith (run ops · machine) outcome) (h' : EndsWith (run ops · machine) outcome') :
    outcome = outcome' := by
  obtain ⟨final, hfinal, rfl⟩ := (endsWith_comp_iff fun _ => Outcome.terminates_map).mp h
  obtain ⟨final', hfinal', rfl⟩ := (endsWith_comp_iff fun _ => Outcome.terminates_map).mp h'
  rw [endsWith_walk_unique hfinal hfinal']

/-- A call of a block that goes as the interpreter does on the relinked stream agrees with it. -/
theorem agreesWith_of_exec_eq {other : Machine} {view : Machine → Machine}
    (hblock : Block.ofOps ops = some block)
    (hends : ∀ outcome, ends outcome ↔ EndsWith (block.call descriptors · machine) outcome)
    (hexec : ∀ fuel, block.exec (Op.actNative descriptors) fuel machine.atOrigin =
      (block.exec Op.act fuel other).map view) :
    AgreesWith ends (Bytecode.run (relinked ops) · other) view machine.tape.pointer := by
  -- the ends of the call are what is made of the ends of the interpreter
  have hcall : ∀ outcome, ends outcome ↔
      ∃ final, EndsWith (Bytecode.run (relinked ops) · other) final ∧
        (final.map view).afterCall machine.tape.pointer = outcome := by
    intro outcome
    rw [hends]
    simp only [Block.call_eq, hexec, endsWith_run_relinked hblock]
    exact endsWith_comp_iff fun _ =>
      Outcome.terminates_afterCall.trans Outcome.terminates_map
  -- the interpreter ends in one way only, so that the call does
  have hunique : ∀ final, EndsWith (Bytecode.run (relinked ops) · other) final →
      ∀ outcome, ends outcome ↔
        outcome = (final.map view).afterCall machine.tape.pointer := by
    intro final hfinal outcome
    rw [hcall]
    constructor
    · rintro ⟨final', hfinal', rfl⟩
      rw [Bytecode.endsWith_run_unique hfinal' hfinal]
    · rintro rfl
      exact ⟨final, hfinal, rfl⟩
  refine ⟨?_, fun final hfinal => hunique _ hfinal, fun error final hfinal => ?_⟩
  · rw [halts_iff_exists_endsWith]
    constructor
    · rintro ⟨outcome, houtcome⟩
      obtain ⟨final, hfinal, -⟩ := (hcall outcome).mp houtcome
      exact ⟨final, hfinal⟩
    · rintro ⟨final, hfinal⟩
      exact ⟨_, (hunique final hfinal _).mpr rfl⟩
  · -- native code ignores input and output that fail, so that the error is one of the tape
    have hnative : EndsWith (block.exec (Op.actNative descriptors) · machine.atOrigin)
        (.failed error (view final)) := by
      simp only [hexec]
      exact (endsWith_comp_iff fun _ => Outcome.terminates_map).mpr
        ⟨_, (endsWith_run_relinked hblock).mp hfinal, rfl⟩
    obtain ⟨index, rfl, hrange⟩ := Block.offTape_of_endsWith hnative
    exact ⟨index, rfl, hrange, hunique _ hfinal⟩

end Agreement

/-- Whatever the targets of the jumps of a stream are, native code for it agrees with the op-stream
interpreter on the relinked stream, started with the data pointer on the first cell. This takes two
good descriptors, input that never fails and output without a limit. If both descriptors are bad,
the tape and the result are those of the interpreter with nothing to read, and nothing is read or
written. The relinked stream has the ops of the stream, but its jumps lead to their partners. -/
theorem native_agrees {descriptors : Descriptors} {ops : Array Op} {machine : Machine}
    {ends : Outcome Machine → Prop} (hfit : descriptors.Fit)
    (hsized : ∀ op ∈ ops.toList, op.Sized) (hcall : NativeCall descriptors ops machine ends) :
    (descriptors.Good → machine.Quiet →
      AgreesWith ends (Bytecode.run (relinked ops) · machine.atOrigin) id
        machine.tape.pointer) ∧
    (descriptors.Bad →
      AgreesWith ends
        (Bytecode.run (relinked ops) · ⟨machine.atOrigin.tape, .ofBytes [], .unlimited⟩)
        (machine.withTape ·.tape) machine.tape.pointer) ∧
    (relinked ops).size = ops.size ∧
    ∀ index op, ops[index]? = some op →
      ∃ linked, (relinked ops)[index]? = some linked ∧ Op.LinkedAs ops index op linked := by
  -- the ops spell a block, which both sides follow from the first cell on
  obtain ⟨block, hblock, hends⟩ := hcall.ends_iff hfit hsized
  refine ⟨fun hgood hquiet => ?_, fun hbad => ?_, size_relinked ops,
    fun index op => linkedAs_of_relinked hblock⟩
  · refine agreesWith_of_exec_eq hblock hends fun fuel => ?_
    have horigin : machine.atOrigin.Quiet := hquiet
    rw [Outcome.map_id]
    exact Block.exec_actNative_of_good hgood horigin fuel
  · refine agreesWith_of_exec_eq hblock hends fun fuel => ?_
    have hexec : block.exec (Op.actNative descriptors) fuel machine.atOrigin =
        (block.exec Op.act fuel ⟨machine.atOrigin.tape, .ofBytes [], .unlimited⟩).map
          (machine.atOrigin.withTape ·.tape) := by
      refine Block.exec_actNative_of_bad hbad ?_ ?_ ?_ fuel <;> rfl
    exact hexec

/-- A processor that has called code that is not too long finds a blank tape. -/
theorem X86.machine_called {code : List UInt8} (h : code.length ≤ 0x10000) :
    (called code).machine = ⟨.blank, .ofBytes [], .unlimited⟩ := by
  have hcells : (called code).machine.tape.cells = Tape.blank.cells := by
    refine Vector.ext fun position hposition => ?_
    have hcell := Cpu.get_cells_machine (called code) ⟨position, hposition⟩
    have hblank : Tape.blank.cells[position] = 0 := Vector.getElem_replicate _
    rw [hblank]
    refine hcell.trans (setBytes_of_ne fun offset hoffset heq => ?_)
    exact (enters_called h).code_tape offset hoffset ⟨position, hposition⟩ heq.symm
  exact Machine.ext (Tape.ext hcells rfl) rfl rfl

/-- On a blank tape the loop is not entered, although its targets lead nowhere. The move to the left
of the first cell is reported, and the data pointer is where it was. -/
theorem native_agrees_wrongTargets :
    ∃ bytes function machine final,
      templateCode {} #[.write 1, .jumpIfZero 7, .read 1, .jumpIfNotZero 9, .backward 1] =
        .ok bytes ∧
      loweredFunction {} #[.write 1, .jumpIfZero 7, .read 1, .jumpIfNotZero 9, .backward 1] =
        .ok function ∧
      (∀ outcome, (X86.called bytes.toList).CallEnds machine outcome ↔
        outcome = .failed (.outOfRange (-1)) final) ∧
      (∀ outcome, function.CallEnds 0 machine outcome ↔
        outcome = .failed (.outOfRange (-1)) final) ∧
      machine.tape.pointer.val = 5 ∧ final.tape.pointer.val = 5 ∧
      final.output.bytes = #[0] := by
  let ops : Array Op := #[.write 1, .jumpIfZero 7, .read 1, .jumpIfNotZero 9, .backward 1]
  let machine : Machine := ⟨⟨Tape.blank.cells, ⟨5, by decide⟩⟩, .ofBytes [], .unlimited⟩
  have hfit : Descriptors.Fit {} := ⟨by decide, by decide⟩
  have hgood : Descriptors.Good {} := ⟨rfl, rfl⟩
  have hsized : ∀ op ∈ ops.toList, op.Sized := by simp [ops, Op.Sized]
  have hquiet : machine.Quiet := ⟨⟨[], rfl⟩, rfl⟩
  -- the loop is at positions 1 and 3, and both of its targets are off the stream
  have hlinked : relinked ops =
      #[.write 1, .jumpIfZero 3, .read 1, .jumpIfNotZero 1, .backward 1] := by cbv
  have hrun : EndsWith (Bytecode.run (relinked ops) · machine.atOrigin)
      (.failed (.outOfRange (-1)) ⟨.blank, .ofBytes [], ⟨#[0], none⟩⟩) := by
    rw [hlinked]
    exact ⟨by rintro ⟨⟩, 4, rfl⟩
  have hends : ∀ ends, NativeCall {} ops machine ends → ∀ outcome, ends outcome ↔
      outcome = .failed (.outOfRange (-1))
        ⟨⟨Tape.blank.cells, ⟨5, by decide⟩⟩, .ofBytes [], ⟨#[0], none⟩⟩ := by
    intro ends hcall
    obtain ⟨index, hindex, -, hfailed⟩ :=
      ((native_agrees hfit hsized hcall).1 hgood hquiet).failed _ _ hrun
    cases hindex
    exact hfailed
  obtain ⟨bytes, hbytes, hlength⟩ :
      ∃ bytes, templateCode {} ops = .ok bytes ∧ bytes.toList.length ≤ 0x10000 := by
    have hlength : (templateCode {} ops).toOption.any (·.toList.length ≤ 0x10000) = true := by cbv
    cases hcode : templateCode {} ops with
    | ok bytes =>
      rw [hcode] at hlength
      exact ⟨bytes, rfl, of_decide_eq_true hlength⟩
    | error error =>
      rw [hcode] at hlength
      cases hlength
  obtain ⟨function, hfunction⟩ : ∃ function, loweredFunction {} ops = .ok function := by
    have hok : (loweredFunction {} ops).isOk = true := by cbv
    cases hcode : loweredFunction {} ops with
    | ok function => exact ⟨function, rfl⟩
    | error error =>
      rw [hcode] at hok
      cases hok
  exact ⟨bytes, function, machine, _, hbytes, hfunction,
    hends _ (.machineCode hbytes (X86.enters_called hlength) (X86.machine_called hlength)),
    hends _ (.function hfunction 0), rfl, rfl, rfl⟩

end TapeLang

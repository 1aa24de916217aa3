import TapeLang.Proofs.Compilation
import TapeLang.Proofs.Errors
import TapeLang.Proofs.Idioms
import TapeLang.Proofs.Unfolding

/-!
# Fused runs

A run of equal instructions becomes one op with a count, and the partners of brackets become the
targets of jumps. The op-stream interpreter then does what the scanning interpreter does, except
that a fused move that leads off the tape is refused as a whole.

* `Run.ends`: the instructions of a run one by one, and its op, from the same machine.
* `Program.fused_matches_scanning`: the runs of a program and of its stream without specialization.
-/

namespace TapeLang

/-- Doing the same item again and again is repeating it. -/
theorem Block.actAll_replicate {α : Type} (act : α → Machine → Outcome Machine) (item : α)
    (count : Nat) (machine : Machine) :
    actAll act (List.replicate count item) machine =
      Outcome.iterate (act item) count machine := by
  induction count generalizing machine with
  | zero => rfl
  | succ count ih =>
    rw [List.replicate_succ, actAll, Outcome.iterate_succ]
    congr 1
    funext next
    exact ih next

namespace Machine

variable {machine stopped : Machine} {error : Error}

/-- Adding an amount several times adds a multiple of it. -/
theorem iterate_addCurrent (amount : UInt8) (count : Nat) (machine : Machine) :
    Outcome.iterate (fun machine => .done (machine.mapTape (·.addCurrent amount))) count machine =
      .done (machine.mapTape (·.addCurrent (UInt8.ofNat count * amount))) := by
  induction count generalizing machine with
  | zero =>
    have hsame : machine.tape.addCurrent (UInt8.ofNat 0 * amount) = machine.tape :=
      Tape.modifyCell_eq_self (by simp)
    rw [Outcome.iterate, mapTape_eq, hsame, withTape_tape]
  | succ count ih =>
    rw [Outcome.iterate_succ, Outcome.bind_done, ih]
    simp only [mapTape_eq, tape_withTape, withTape_withTape, Tape.addCurrent,
      Tape.modifyCell_modifyCell, Tape.pointer_modifyCell]
    congr 4
    funext value
    rw [UInt8.ofNat_add]
    grind

/-- A move within the tape puts the pointer where it leads. -/
theorem moveBy_of_range {delta : Int} {target : Fin tapeSize}
    (h : (target : Int) = machine.tape.pointer + delta) :
    machine.moveBy delta = .done (machine.withTape { machine.tape with pointer := target }) := by
  have hmove : machine.tape.moveBy delta = .done { machine.tape with pointer := target } :=
    Tape.moveBy_eq_done_iff.mpr ⟨rfl, h⟩
  rw [moveBy, onTape_eq, hmove]
  rfl

/-- A move off the tape is refused. -/
theorem moveBy_of_not_range {delta : Int}
    (h : ¬ (0 ≤ machine.tape.pointer + delta ∧ machine.tape.pointer + delta < tapeSize)) :
    machine.moveBy delta = .failed (.outOfRange (machine.tape.pointer + delta)) machine := by
  rw [moveBy, onTape_eq, Tape.moveBy, Tape.offset, Tape.index?, dif_neg h]
  rfl

/-- Moving one by one is moving at once, if that does not lead off the tape. -/
theorem iterate_moveBy {delta : Int} (hdelta : delta = 1 ∨ delta = -1) {count : Nat}
    {target : Fin tapeSize} (htarget : (target : Int) = machine.tape.pointer + count * delta) :
    Outcome.iterate (·.moveBy delta) count machine =
      .done (machine.withTape { machine.tape with pointer := target }) := by
  induction count generalizing machine with
  | zero =>
    have hsame : target = machine.tape.pointer := Fin.ext (by simpa using htarget)
    rw [hsame]
    rfl
  | succ count ih =>
    have hlt := target.isLt
    have hpointer := machine.tape.pointer.isLt
    -- the target is further on in the same direction, so that the first move stays on the tape
    obtain ⟨next, hnext⟩ : ∃ next : Fin tapeSize, (next : Int) = machine.tape.pointer + delta := by
      have hrange : 0 ≤ machine.tape.pointer + delta ∧ machine.tape.pointer + delta < tapeSize := by
        rcases hdelta with rfl | rfl <;> push_cast at htarget <;> omega
      exact ⟨⟨(machine.tape.pointer + delta).toNat, by omega⟩, Int.toNat_of_nonneg hrange.1⟩
    rw [Outcome.iterate_succ, moveBy_of_range hnext, Outcome.bind_done, ih]
    · rfl
    · show (target : Int) = next + count * delta
      rcases hdelta with rfl | rfl <;> push_cast at htarget <;> omega

/-- Moving one by one fails at the edge of the tape, if moving at once leads off the tape. -/
theorem iterate_moveBy_failed {delta : Int} {edge : Fin tapeSize}
    (hedge : (delta = 1 ∧ edge.val + 1 = tapeSize) ∨ (delta = -1 ∧ edge.val = 0)) {count : Nat}
    (hrange : ¬ (0 ≤ machine.tape.pointer + count * delta ∧
      machine.tape.pointer + count * delta < tapeSize)) :
    Outcome.iterate (·.moveBy delta) count machine =
      .failed (.outOfRange (edge + delta))
        (machine.withTape { machine.tape with pointer := edge }) := by
  -- the moves go on until the edge is reached, and the next one fails there
  induction count generalizing machine with
  | zero =>
    have hpointer := machine.tape.pointer.isLt
    omega
  | succ count ih =>
    have hpointer := machine.tape.pointer.isLt
    rw [Outcome.iterate_succ]
    by_cases hlast : machine.tape.pointer = edge
    · have hstep : ¬ (0 ≤ (machine.tape.pointer : Int) + delta ∧
          (machine.tape.pointer : Int) + delta < tapeSize) := by
        rw [hlast]
        omega
      rw [moveBy_of_not_range hstep, ← hlast]
      rfl
    · have hne : machine.tape.pointer.val ≠ edge.val := fun heq => hlast (Fin.ext heq)
      obtain ⟨next, hnext⟩ :
          ∃ next : Fin tapeSize, (next : Int) = machine.tape.pointer + delta := by
        have hstep : 0 ≤ machine.tape.pointer + delta ∧
            machine.tape.pointer + delta < tapeSize := by omega
        exact ⟨⟨(machine.tape.pointer + delta).toNat, by omega⟩, Int.toNat_of_nonneg hstep.1⟩
      rw [moveBy_of_range hnext, Outcome.bind_done, ih]
      · rfl
      · show ¬ (0 ≤ (next : Int) + count * delta ∧ (next : Int) + count * delta < tapeSize)
        rcases hedge with ⟨rfl, -⟩ | ⟨rfl, -⟩ <;> push_cast at hrange <;> omega

/-- Moving one by one and moving at once come to the same, or they both lead off the tape. -/
theorem iterate_moveBy_or {delta : Int} {edge : Fin tapeSize}
    (hedge : (delta = 1 ∧ edge.val + 1 = tapeSize) ∨ (delta = -1 ∧ edge.val = 0)) (count : Nat)
    (machine : Machine) :
    (∃ next, Outcome.iterate (·.moveBy delta) count machine = .done next ∧
      machine.moveBy (count * delta) = .done next) ∨
    (Outcome.iterate (·.moveBy delta) count machine = .failed (.outOfRange (edge + delta))
        (machine.withTape { machine.tape with pointer := edge }) ∧
      machine.moveBy (count * delta) =
        .failed (.outOfRange (machine.tape.pointer + count * delta)) machine) := by
  by_cases hrange : 0 ≤ machine.tape.pointer + count * delta ∧
      machine.tape.pointer + count * delta < tapeSize
  · obtain ⟨target, htarget⟩ :
        ∃ target : Fin tapeSize, (target : Int) = machine.tape.pointer + count * delta :=
      ⟨⟨(machine.tape.pointer + count * delta).toNat, by omega⟩, Int.toNat_of_nonneg hrange.1⟩
    have hdelta : delta = 1 ∨ delta = -1 := hedge.imp And.left And.left
    exact .inl ⟨_, iterate_moveBy hdelta htarget, moveBy_of_range htarget⟩
  · exact .inr ⟨iterate_moveBy_failed hedge hrange, moveBy_of_not_range hrange⟩

end Machine

namespace Run

variable {run : Run}

/-- A run of moves leads off the tape. The single moves go on to the edge of the tape and the first
that leads beyond it fails; the fused move fails as a whole. Given are the machine before the run,
the error of the single move with the machine that it leaves, and the error of the fused move, which
leaves the machine as it was. -/
inductive OffTape (run : Run) (machine : Machine) : Error → Machine → Error → Prop
  | right {edge : Fin tapeSize} (hinstr : run.instr = .right) (hedge : edge.val + 1 = tapeSize) :
      OffTape run machine (.outOfRange tapeSize)
        (machine.withTape { machine.tape with pointer := edge })
        (.outOfRange (machine.tape.pointer + run.count))
  | left {edge : Fin tapeSize} (hinstr : run.instr = .left) (hedge : edge.val = 0) :
      OffTape run machine (.outOfRange (-1))
        (machine.withTape { machine.tape with pointer := edge })
        (.outOfRange (machine.tape.pointer - run.count))

/-- The instructions of a run, one by one, and its op do the same from a machine, or they lead off
the tape. -/
def Ends (run : Run) (machine : Machine) : Prop :=
  (Block.actAll Instr.act run.expand machine = run.op.act machine ∧
    (run.op.act machine).EndsOrIo) ∨
  ∃ error stopped error', Block.actAll Instr.act run.expand machine = .failed error stopped ∧
    run.op.act machine = .failed error' machine ∧ run.OffTape machine error stopped error'

/-- The instructions of a run that is no bracket, one by one, and its op do the same from a machine,
or they lead off the tape. -/
theorem ends (hside : run.side = none) (hcount : run.count < 2 ^ 63) (machine : Machine) :
    run.Ends machine := by
  obtain ⟨instr, count⟩ := run
  have hexpand : Block.actAll Instr.act (expand ⟨instr, count⟩) machine =
      Outcome.iterate instr.act count machine := Block.actAll_replicate _ _ _ _
  rw [Ends, hexpand]
  cases instr with
  -- the single moves fail at the edge of the tape, the fused move at once
  | right =>
    obtain ⟨edge, hedge⟩ : ∃ edge : Fin tapeSize, edge.val + 1 = tapeSize :=
      ⟨⟨29999, by decide⟩, rfl⟩
    have hop : op ⟨.right, count⟩ = .forward count := rfl
    rw [hop, Op.act, signedWord_natCast hcount]
    rcases Machine.iterate_moveBy_or (Or.inl ⟨rfl, hedge⟩) count machine with
      ⟨next, hsingle, hfused⟩ | ⟨hsingle, hfused⟩
    · rw [Int.mul_one] at hfused
      exact .inl ⟨hsingle.trans hfused.symm, .inl ⟨next, hfused⟩⟩
    · rw [Int.mul_one] at hfused
      have herror : (edge : Int) + 1 = tapeSize := by omega
      rw [herror] at hsingle
      exact .inr ⟨_, _, _, hsingle, hfused, .right rfl hedge⟩
  | left =>
    obtain ⟨edge, hedge⟩ : ∃ edge : Fin tapeSize, edge.val = 0 := ⟨⟨0, by decide⟩, rfl⟩
    have hop : op ⟨.left, count⟩ = .backward count := rfl
    rw [hop, Op.act, signedWord_natCast hcount]
    rcases Machine.iterate_moveBy_or (Or.inr ⟨rfl, hedge⟩) count machine with
      ⟨next, hsingle, hfused⟩ | ⟨hsingle, hfused⟩
    · rw [Int.mul_neg, Int.mul_one] at hfused
      exact .inl ⟨hsingle.trans hfused.symm, .inl ⟨next, hfused⟩⟩
    · rw [Int.mul_neg, Int.mul_one, ← Int.sub_eq_add_neg] at hfused
      have herror : (edge : Int) + -1 = -1 := by omega
      rw [herror] at hsingle
      exact .inr ⟨_, _, _, hsingle, hfused, .left rfl hedge⟩
  | increment =>
    have hact : Outcome.iterate (Instr.act .increment) count machine =
        (op ⟨.increment, count⟩).act machine := by
      refine (Machine.iterate_addCurrent 1 count machine).trans ?_
      rw [UInt8.mul_one]
      rfl
    exact .inl ⟨hact, .inl ⟨_, rfl⟩⟩
  | decrement =>
    have hact : Outcome.iterate (Instr.act .decrement) count machine =
        (op ⟨.decrement, count⟩).act machine := by
      have hsingle : Instr.act .decrement =
          fun machine => .done (machine.mapTape (·.addCurrent (-1))) := by
        funext machine
        simp only [Instr.act, Tape.subCurrent_eq_addCurrent]
      rw [hsingle, Machine.iterate_addCurrent, UInt8.mul_neg, UInt8.mul_one]
      simp only [← Tape.subCurrent_eq_addCurrent]
      rfl
    exact .inl ⟨hact, .inl ⟨_, rfl⟩⟩
  | write =>
    exact .inl ⟨rfl, Outcome.endsOrIo_iterate Machine.endsOrIo_write count machine⟩
  | read =>
    exact .inl ⟨rfl, Outcome.endsOrIo_iterate Machine.endsOrIo_read count machine⟩
  | loopStart => cases hside
  | loopEnd => cases hside

/-- The instructions of a run and its op end alike. -/
theorem Ends.sameEnd {machine : Machine} (h : run.Ends machine) :
    Block.SameEnd (Block.actAll Instr.act run.expand machine)
      (Block.actAll Op.act [run.op] machine) := by
  have hsingle : Block.actAll Op.act [run.op] machine = run.op.act machine := by
    simp [Block.actAll]
  rw [hsingle]
  rcases h with ⟨heq, ⟨next, hnext⟩ | ⟨text, stopped, hstopped⟩⟩ |
    ⟨error, stopped, error', hexpand, hop, -⟩
  · rw [heq, hnext]
    rfl
  · rw [heq, hstopped]
    trivial
  · rw [hexpand, hop]
    trivial

end Run

namespace Block

/-- The instructions of a block of runs are the block unfolded into single instructions. -/
theorem unfold_expand (block : Block Run) : block.unfold Run.expand = block.instrs := by
  induction block with
  | done => rfl
  | op run rest ih => rw [unfold, instrs, ih]
  | loop body rest ihbody ihrest => rw [unfold, instrs, ihbody, ihrest]

/-- The ops of a block of runs are the block unfolded into one op for each run. -/
theorem unfold_op (block : Block Run) : block.unfold (fun run => [run.op]) = block.plain := by
  induction block with
  | done => rfl
  | op run rest ih =>
    rw [unfold, plain, ih]
    rfl
  | loop body rest ihbody ihrest => rw [unfold, plain, ihbody, ihrest]

end Block

namespace Program

variable {program : Program} {stream : Stream} {index position : Nat} {block : Block Run}

/-- The scanning interpreter carries out the instructions of the block that the runs spell. -/
theorem walks_iff_exec_instrs (h : Block.Spells Run.side program.runs block) {machine : Machine}
    {visited : List Config} {outcome : Outcome Config} :
    Walks program.scanningStep ⟨0, machine⟩ visited outcome ↔
      Block.Exec Instr.act 0 block.instrs ⟨0, machine⟩ visited outcome := by
  refine Block.walks_iff_exec (follows_instrs_of_reads (reads_zero_of_spells h))
    (Block.meets_start _ _ _) fun machine => ?_
  have hsize : program.instrs.size = block.width := size_eq_width h
  simp [scanningStep, stepOf, ← hsize]

/-- The runs that a program reads end like their ops. -/
theorem all_ends_of_reads (hsize : program.size < 2 ^ 63) (h : program.Reads position block) :
    block.All fun run => run.expand ≠ [] ∧ [run.op] ≠ [] ∧ ∀ machine, run.Ends machine := by
  induction block generalizing position with
  | done => trivial
  | op run rest ih =>
    refine ⟨⟨?_, List.cons_ne_nil _ _, ?_⟩, ih h.2⟩
    · rw [← List.length_pos_iff, Run.length_expand]
      exact h.1.count_pos
    · exact Run.ends h.1.side_eq (Nat.lt_of_le_of_lt h.1.count_le hsize)
  | loop body rest ihbody ihrest => exact ⟨ihbody h.2.1, ihrest h.2.2.2⟩

/-- Where an item of a block stands in the program and in its stream. -/
theorem facts_of_places {run : Run} {placed placed' : Nat}
    (h : block.Places Run.expand (fun run => [run.op]) position index run placed placed')
    (hreads : program.Reads position block)
    (htraced : block.Traced ⟨false, false⟩ stream.positions index position)
    (hlaid : block.plain.LaidOut stream.ops index) :
    program.MaximalRunAt placed run ∧ stream.position? placed' = some placed ∧
      stream.get? placed' = some run.op := by
  induction block generalizing position index with
  | done => exact h.elim
  | op first rest ih =>
    rcases h with ⟨rfl, rfl, rfl⟩ | h
    · exact ⟨hreads.1, htraced.1, hlaid.1⟩
    · rw [Run.length_expand] at h
      exact ih h hreads.2 htraced.2 hlaid.2
  | loop body rest ihbody ihrest =>
    -- without specialization no loop is replaced
    have hreplacement : (body.plain.reduce ⟨false, false⟩).replacement? ⟨false, false⟩ = none := rfl
    simp only [Block.Traced, hreplacement] at htraced
    rcases h with h | h
    · exact ihbody h hreads.2.1 htraced.2.1 hlaid.2.1
    · rw [Block.unfold_expand, Block.size_instrs, Block.unfold_op] at h
      rw [Block.reduce_of_not_specializeLoops rfl] at htraced
      exact ihrest h hreads.2.2.2 htraced.2.2.2 hlaid.2.2.2

/-- A run of moves of the program leads off the tape: the naive run fails inside of it, after it has
begun with the machine that the fused run has kept. -/
structure RunsOff (program : Program) (stream : Stream) (start : Config) (position : Nat)
    (run : Run) (error : Error) (naive : Config) (error' : Error) (fused : Config) : Prop where
  /-- The run of moves is a maximal one. -/
  maximal : program.MaximalRunAt position run
  /-- The fused run stands at the op of the run of moves. -/
  op_eq : stream.get? fused.position = some run.op
  /-- The op comes from the run of moves. -/
  position_eq : stream.position? fused.position = some position
  /-- The naive run has come to the run of moves with the machine of the fused run. -/
  reached : ∃ fuel, ⟨position, fused.machine⟩ ∈ Scanning.trailFrom program fuel start
  /-- The naive run has stopped inside of the run of moves. -/
  inside : position ≤ naive.position ∧ naive.position < position + run.count
  /-- Both have left the tape from the machine of the fused run. -/
  off : run.OffTape fused.machine error naive.machine error'

/-- How the outcome of a naive run and that of a fused run agree: both come to the end with the same
machine, or the same input or output error stops both with the same machine, or they lead off the
tape in the same run of moves. -/
def Matches (program : Program) (stream : Stream) (start : Config) :
    Outcome Config → Outcome Config → Prop
  | .done naive, .done fused => naive.machine = fused.machine
  | .failed error naive, .failed error' fused =>
    (∃ text, error = .io text ∧ error' = .io text ∧ naive.machine = fused.machine) ∨
      ∃ position run, program.RunsOff stream start position run error naive error' fused
  | _, _ => False

/-- Executions of the instructions and of the ops of a program that correspond have outcomes that
agree. -/
theorem matches_of_corresponds {machine : Machine} {visited : List Config}
    {outcome outcome' : Outcome Config} (hsize : program.size < 2 ^ 63)
    (hreads : program.Reads 0 block)
    (htraced : block.Traced ⟨false, false⟩ stream.positions 0 0)
    (hlaid : block.plain.LaidOut stream.ops 0)
    (hwalks : Walks program.scanningStep ⟨0, machine⟩ visited outcome)
    (h : Block.Corresponds Instr.act Op.act Run.expand (fun run => [run.op]) 0 0 block visited
      outcome outcome') : program.Matches stream ⟨0, machine⟩ outcome outcome' := by
  cases outcome with
  | done naive =>
    cases outcome' with
    | done fused => exact h
    | failed error' fused => exact h.elim
    | unfinished => exact h.elim
  | failed error naive =>
    cases outcome' with
    | done fused => exact h.elim
    | failed error' fused =>
      obtain ⟨run, position, position', before, hplaces, hmem, hinside, hinside', hsingle,
        hfused⟩ := h
      obtain ⟨hmaximal, hposition, hop⟩ := facts_of_places hplaces hreads htraced hlaid
      obtain rfl : position' = fused.position := by
        rw [List.length_singleton] at hinside'
        omega
      have hact : run.op.act before = .failed error' fused.machine := by
        simpa [Block.actAll] using hfused
      -- either both fail in the same way, or both leave the tape and report different indices
      rcases Run.ends hmaximal.side_eq (Nat.lt_of_le_of_lt hmaximal.count_le hsize) before with
        ⟨heq, hends⟩ | ⟨off, stopped, off', hexpand, hact', hoff⟩
      · rw [hsingle, hact, Outcome.failed.injEq] at heq
        obtain ⟨rfl, heq⟩ := heq
        rcases hends with ⟨next, hnext⟩ | ⟨text, stopped, hstopped⟩
        · rw [hact] at hnext
          cases hnext
        · rw [hact] at hstopped
          cases hstopped
          exact .inl ⟨text, rfl, rfl, heq⟩
      · rw [hsingle, Outcome.failed.injEq] at hexpand
        rw [hact, Outcome.failed.injEq] at hact'
        obtain ⟨rfl, rfl⟩ := hexpand
        obtain ⟨rfl, rfl⟩ := hact'
        rw [Run.length_expand] at hinside
        exact .inr ⟨position, run, hmaximal, hop, hposition, hwalks.mem_visited_iff.mp hmem,
          hinside, hoff⟩
    | unfinished => exact h.elim
  | unfinished => exact h.elim

/-- A program whose brackets match compiles, and its stream without specialization does what the
scanning interpreter does: the one run ends if and only if the other does, and then their outcomes
agree. The program has to fit in memory, so that a word can count its runs. -/
theorem fused_matches_scanning (hbalanced : program.Balanced) (hsize : program.size < 2 ^ 63) :
    ∃ stream, program.compilePlain = .ok stream ∧ ∀ machine,
      (Halts (Scanning.runFrom program · ⟨0, machine⟩) ↔
        Halts (Bytecode.runFrom stream.ops · ⟨0, machine⟩)) ∧
      ∀ outcome outcome', EndsWith (Scanning.runFrom program · ⟨0, machine⟩) outcome →
        EndsWith (Bytecode.runFrom stream.ops · ⟨0, machine⟩) outcome' →
        program.Matches stream ⟨0, machine⟩ outcome outcome' := by
  obtain ⟨block, hspells⟩ := exists_spells_of_balanced hbalanced
  obtain ⟨stream, hcompile, hops, hpositions⟩ := compile_of_spells ⟨false, false⟩ hspells
  have htraced : block.Traced ⟨false, false⟩ stream.positions 0 0 :=
    Block.traced_of_append [] [] (by simpa using hpositions)
  rw [Block.reduce_of_not_specializeLoops rfl] at hops
  have hreads := reads_zero_of_spells hspells
  have hlaid := Block.laidOut_of_toList_eq hops
  have hside := Block.all_plain_of_spells hspells
  have hall := all_ends_of_reads hsize hreads
  refine ⟨stream, hcompile, fun machine => ?_⟩
  -- an execution of the instructions gives one of the ops, and the other way round
  have hforward : ∀ visited outcome,
      Block.Exec Instr.act 0 block.instrs ⟨0, machine⟩ visited outcome →
      ∃ visited' outcome', Block.Exec Op.act 0 block.plain ⟨0, machine⟩ visited' outcome' ∧
        Block.Corresponds Instr.act Op.act Run.expand (fun run => [run.op]) 0 0 block visited
          outcome outcome' := by
    intro visited outcome hexec
    rw [← Block.unfold_expand] at hexec
    have hmatched := Block.exec_unfold (hall.imp fun run h => ⟨h.1, h.2.1, fun machine =>
      (h.2.2 machine).sameEnd⟩) 0 0 _ _ _ hexec 0 (Block.meets_start _ _ _)
    rwa [Block.unfold_op] at hmatched
  have hbackward : ∀ visited outcome,
      Block.Exec Op.act 0 block.plain ⟨0, machine⟩ visited outcome →
      ∃ visited' outcome', Block.Exec Instr.act 0 block.instrs ⟨0, machine⟩ visited' outcome' := by
    intro visited outcome hexec
    rw [← Block.unfold_op] at hexec
    obtain ⟨visited', outcome', hexec', -⟩ := Block.exec_unfold (hall.imp fun run h => ⟨h.2.1, h.1,
      fun machine => (h.2.2 machine).sameEnd.symm⟩) 0 0 _ _ _ hexec 0 (Block.meets_start _ _ _)
    rw [Block.unfold_expand] at hexec'
    exact ⟨visited', outcome', hexec'⟩
  have hscanning : Halts (Scanning.runFrom program · ⟨0, machine⟩) ↔
      ∃ visited outcome, Block.Exec Instr.act 0 block.instrs ⟨0, machine⟩ visited outcome := by
    simp only [← walks_iff_exec_instrs hspells]
    exact halts_walk_iff
  refine ⟨?_, fun outcome outcome' hends hends' => ?_⟩
  · rw [hscanning, Bytecode.halts_iff_exec hops hside]
    constructor
    · rintro ⟨visited, outcome, hexec⟩
      obtain ⟨visited', outcome', hexec', -⟩ := hforward visited outcome hexec
      exact ⟨visited', outcome', hexec'⟩
    · rintro ⟨visited, outcome, hexec⟩
      exact hbackward visited outcome hexec
  · obtain ⟨visited, hwalks⟩ := endsWith_walk_iff.mp hends
    obtain ⟨visited', hwalks'⟩ := endsWith_walk_iff.mp hends'
    obtain ⟨visited'', outcome'', hexec, hcorresponds⟩ :=
      hforward visited outcome ((walks_iff_exec_instrs hspells).mp hwalks)
    obtain ⟨-, rfl⟩ := hwalks'.unique ((Bytecode.walks_iff_exec hops hside).mpr hexec)
    exact matches_of_corresponds hsize hreads htraced hlaid hwalks hcorresponds

/-- The program that goes to the right by twos until it finds a zero. -/
theorem fused_matches_scanning_twoRight :
    ∃ stream, Program.compilePlain
        ⟨#[.increment, .loopStart, .right, .right, .loopEnd]⟩ = .ok stream ∧ ∀ machine,
      (Halts (Scanning.runFrom ⟨#[.increment, .loopStart, .right, .right, .loopEnd]⟩ ·
          ⟨0, machine⟩) ↔ Halts (Bytecode.runFrom stream.ops · ⟨0, machine⟩)) ∧
      ∀ outcome outcome',
        EndsWith (Scanning.runFrom ⟨#[.increment, .loopStart, .right, .right, .loopEnd]⟩ ·
          ⟨0, machine⟩) outcome →
        EndsWith (Bytecode.runFrom stream.ops · ⟨0, machine⟩) outcome' →
        Program.Matches ⟨#[.increment, .loopStart, .right, .right, .loopEnd]⟩ stream ⟨0, machine⟩
          outcome outcome' :=
  fused_matches_scanning (balanced_iff_openAfter.mpr rfl) (by decide)

end Program

end TapeLang

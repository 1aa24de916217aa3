import TapeLang.Proofs.Errors
import TapeLang.Proofs.Reduction
import TapeLang.Proofs.Unmatched

/-!
# The loops of compiled streams

Replacing an inner loop makes the stream shorter while the loops around it are still open. What
comes out is a laid-out block all the same, so that its jumps can be read off the nesting: they
are the pairs of brackets of the program, without those of the loops that were replaced.

## Main definitions

* `Block.loops`: the loops of a block that is laid out from a position on.
* `Stream.SpecializedAt`: a specialized op comes from a position of the program.

## Main results

* `Stream.check_of_layout`: a stream that is a laid-out block passes its check.
* `Program.pairsBefore_of_reads`: the pairs of brackets of a program are the loops of its block.
* `Program.consistent_of_compile`: the loops of a compiled stream are pairs of brackets of the
  program, and no run finds the stream to be broken.
-/

namespace TapeLang

/-- Numbers that go up from a lower bound and stay below an upper one. -/
def Ascends : Nat → Nat → List Nat → Prop
  | lower, upper, [] => lower ≤ upper
  | lower, upper, number :: numbers => lower ≤ number ∧ Ascends (number + 1) upper numbers

namespace Ascends

variable {lower middle upper : Nat} {numbers more : List Nat}

/-- The lower bound may be lower. -/
theorem mono (h : Ascends middle upper numbers) (hle : lower ≤ middle) :
    Ascends lower upper numbers := by
  cases numbers with
  | nil => exact Nat.le_trans hle h
  | cons number numbers => exact ⟨Nat.le_trans hle h.1, h.2⟩

/-- Numbers that go up to a bound are followed by numbers that go up from there. -/
theorem append (h : Ascends lower middle numbers) (h' : Ascends middle upper more) :
    Ascends lower upper (numbers ++ more) := by
  induction numbers generalizing lower with
  | nil => exact h'.mono h
  | cons number numbers ih => exact ⟨h.1, ih h.2⟩

/-- The numbers keep to the lower bound. -/
theorem le_of_mem (h : Ascends lower upper numbers) : ∀ number ∈ numbers, lower ≤ number := by
  induction numbers generalizing lower with
  | nil => simp
  | cons number numbers ih =>
    refine List.forall_mem_cons.mpr ⟨h.1, fun later hmem => ?_⟩
    exact Nat.le_trans h.1 (Nat.le_of_succ_le (ih h.2 later hmem))

/-- Each number is below the later ones. -/
theorem pairwise (h : Ascends lower upper numbers) : numbers.Pairwise (· < ·) := by
  induction numbers generalizing lower with
  | nil => exact List.Pairwise.nil
  | cons number numbers ih => exact List.pairwise_cons.mpr ⟨h.2.le_of_mem, ih h.2⟩

/-- No number occurs twice. -/
theorem nodup (h : Ascends lower upper numbers) : numbers.Nodup :=
  h.pairwise.imp Nat.ne_of_lt

end Ascends

namespace Block

variable {α : Type}

/-- The loops of a block that is laid out from a position on, as start and end, in the order in
which they start. -/
def loops : Nat → Block α → List (Nat × Nat)
  | _, done => []
  | start, op _ rest => rest.loops (start + 1)
  | start, loop body rest =>
    (start, start + body.size + 1) ::
      (body.loops (start + 1) ++ rest.loops (start + body.size + 2))

/-- Items in front of a block move its loops. -/
theorem loops_foldr_op (items : List α) (rest : Block α) (start : Nat) :
    (items.foldr op rest).loops start = rest.loops (start + items.length) := by
  induction items generalizing start with
  | nil => rfl
  | cons item items ih =>
    rw [List.foldr_cons, loops, ih, List.length_cons]
    congr 1
    omega

/-- Where a block of runs compiles to ops without loops, the program has no loop. -/
theorem loops_instrs_of_plain_eq {block : Block Run} {items : List Op} (position : Nat)
    (h : block.plain = items.foldr .op .done) : block.instrs.loops position = [] := by
  induction block generalizing items position with
  | done => rfl
  | op run rest ih =>
    rw [instrs, loops_foldr_op]
    cases items with
    | nil => cases h
    | cons item items =>
      rw [plain, List.foldr_cons, op.injEq] at h
      exact ih _ h.2
  | loop body rest => cases items <;> cases h

/-- The ops of a block that is laid out are its items and jumps. -/
theorem forall_mem_layout {p : Op → Prop} (hopen : ∀ target, p (.jumpIfZero target))
    (hclose : ∀ target, p (.jumpIfNotZero target)) {block : Block Op} (h : block.All p)
    (start : Nat) : ∀ op ∈ block.layout start, p op := by
  induction block generalizing start with
  | done => simp [layout]
  | op item rest ih => exact List.forall_mem_cons.mpr ⟨h.1, ih h.2 _⟩
  | loop body rest ihbody ihrest =>
    refine List.forall_mem_cons.mpr ⟨hopen _, List.forall_mem_append.mpr ⟨ihbody h.1 _, ?_⟩⟩
    exact List.forall_mem_cons.mpr ⟨hclose _, ihrest h.2 _⟩

/-- A run does not become a specialized op. -/
theorem all_plain_not_specialized (block : Block Run) :
    block.plain.All fun op => op.isSpecialized = false := by
  induction block with
  | done => trivial
  | op run rest ih =>
    obtain ⟨instr, count⟩ := run
    refine ⟨?_, ih⟩
    cases instr <;> rfl
  | loop body rest ihbody ihrest => exact ⟨ihbody, ihrest⟩

end Block

namespace Stream

variable {ops : Array Op} {block : Block Op} {stream : Stream}

/-- Passing an op that is no jump leaves the open loops as they are. -/
theorem checkOp_of_side_eq_none {op : Op} (hside : op.side = none) (opened : List Nat)
    (index : Nat) : checkOp ops opened (op, index) = .ok opened := by
  cases op <;> first | rfl | cases hside

/-- Checking a block that is laid out ends with the loops open that were open before it. -/
theorem foldlM_checkOp_of_laidOut {start : Nat} (h : block.LaidOut ops start)
    (hall : block.All fun op => op.side = none) (opened : List Nat) :
    ((block.layout start).zipIdx start).foldlM (checkOp ops) opened = .ok opened := by
  -- the loops of the block are opened and closed again on top of those that are open before it
  induction block generalizing start opened with
  | done => rfl
  | op item rest ih =>
    rw [Block.layout, List.zipIdx_cons, List.foldlM_cons, checkOp_of_side_eq_none hall.1]
    exact ih h.2 hall.2 opened
  | loop body rest ihbody ihrest =>
    obtain ⟨-, hbody, hend, hrest⟩ := h
    have hopen : checkOp ops opened (.jumpIfZero (start + body.size + 1), start) =
        .ok (start :: opened) := if_pos hend
    have hclose : checkOp ops (start :: opened) (.jumpIfNotZero start, start + body.size + 1) =
        .ok opened := if_pos rfl
    have hindex : start + 1 + body.size = start + body.size + 1 := by omega
    rw [Block.layout, List.zipIdx_cons, List.foldlM_cons, hopen]
    show List.foldlM _ (start :: opened) _ = _
    rw [List.zipIdx_append, List.foldlM_append, ihbody hbody hall.1]
    show List.foldlM _ (start :: opened) _ = _
    rw [Block.length_layout, List.zipIdx_cons, List.foldlM_cons, hindex, hclose]
    exact ihrest hrest hall.2 opened

/-- A stream that is a laid-out block passes its check. -/
theorem check_of_layout (hops : ops.toList = block.layout 0)
    (hall : block.All fun op => op.side = none) : check ops = .ok () := by
  rw [check, hops, foldlM_checkOp_of_laidOut (Block.laidOut_of_toList_eq hops) hall]
  rfl

/-- The loops that are listed of a stream that is a laid-out block are the loops of the block. -/
theorem loopPairs_of_layout (hops : stream.ops.toList = block.layout 0)
    (hall : block.All fun op => op.side = none) : stream.loopPairs = block.loops 0 := by
  rw [loopPairs, hops]
  clear hops
  -- the parts of a block begin at any index
  generalize 0 = start
  induction block generalizing start with
  | done => rfl
  | op item rest ih =>
    rw [Block.layout, List.zipIdx_cons, Block.loops, ← ih hall.2]
    refine List.filterMap_cons_none ?_
    have hside := hall.1
    cases item <;> first | rfl | cases hside
  | loop body rest ihbody ihrest =>
    have hindex : start + 1 + body.size = start + body.size + 1 := by omega
    rw [Block.layout, List.zipIdx_cons, Block.loops, ← ihbody hall.1, ← ihrest hall.2]
    refine congrArg ((start, start + body.size + 1) :: ·) ?_
    rw [List.zipIdx_append, List.filterMap_append, Block.length_layout, hindex]
    rfl

/-- A specialized op of the stream comes from a position of the program. -/
def SpecializedAt (stream : Stream) (position : Nat) : Prop :=
  ∃ index op, stream.get? index = some op ∧ op.isSpecialized = true ∧
    stream.position? index = some position

/-- Whether a specialized op comes from a position is found by going through the stream. -/
instance (stream : Stream) (position : Nat) : Decidable (stream.SpecializedAt position) :=
  decidable_of_iff
    (∃ index < stream.size, (stream.get? index).any Op.isSpecialized = true ∧
      stream.position? index = some position) <| by
    constructor
    · rintro ⟨index, -, hany, hposition⟩
      obtain ⟨op, hop, hspecialized⟩ := (Option.any_eq_true _ _).mp hany
      exact ⟨index, op, hop, hspecialized, hposition⟩
    · rintro ⟨index, op, hop, hspecialized, hposition⟩
      refine ⟨index, (Array.getElem?_eq_some_iff.mp hop).1, ?_, hposition⟩
      rw [hop]
      exact hspecialized

/-- The positions in the program of the two ends of a loop of the stream. -/
def sourcePair (stream : Stream) (pair : Nat × Nat) : Option Nat × Option Nat :=
  (stream.position? pair.1, stream.position? pair.2)

/-- A stream of runs and jumps has no specialized ops. -/
theorem not_specializedAt_of_layout {block : Block Run}
    (hops : stream.ops.toList = block.plain.layout 0) (position : Nat) :
    ¬ stream.SpecializedAt position := by
  rintro ⟨index, op, hop, hspecialized, -⟩
  have hmem : op ∈ block.plain.layout 0 := by
    rw [← hops]
    exact Array.mem_toList_iff.mpr (Array.mem_of_getElem? hop)
  have hnot := Block.forall_mem_layout (fun _ => rfl) (fun _ => rfl)
    block.all_plain_not_specialized 0 op hmem
  rw [hspecialized] at hnot
  cases hnot

end Stream

namespace Program

variable {options : CompileOptions} {program : Program} {stream : Stream} {position index : Nat}
  {block : Block Run}

/-- The pairs of brackets in the part of a program that is read as a block are the loops of the
block. -/
theorem filterMap_loopAt?_of_reads (h : program.Reads position block) :
    (List.range' position block.width).filterMap program.loopAt? =
      block.instrs.loops position := by
  induction block generalizing position with
  | done => rfl
  | op run rest ih =>
    -- no loop starts in a run
    have hrun : (List.range' position run.count).filterMap program.loopAt? = [] := by
      refine List.filterMap_eq_nil_iff.mpr fun k hk => loopAt?_eq_none ?_
      obtain ⟨hle, hlt⟩ := List.mem_range'_1.mp hk
      have hget := h.1.get_eq (k - position) (by omega)
      rw [Nat.add_sub_cancel' hle] at hget
      rw [hget]
      rintro hstart
      have hside := h.1.side_eq
      rw [Run.side, Option.some.inj hstart] at hside
      cases hside
    rw [Block.width, ← List.range'_append_1, List.filterMap_append, hrun, List.nil_append,
      ih h.2, Block.instrs, Block.loops_foldr_op, Run.length_expand]
  | loop body rest ihbody ihrest =>
    have hclose := closeOf_of_reads h
    obtain ⟨hstart, hbody, hend, hrest⟩ := h
    have hfirst : program.loopAt? position = some (position, position + body.width + 1) := by
      simp only [loopAt?, hstart, hclose, Option.map_some]
    have hlast : program.loopAt? (position + 1 + body.width) = none := by
      refine loopAt?_eq_none ?_
      rw [Nat.add_right_comm, hend]
      simp
    -- the positions of the loop: its start, those of its body, its end, and those behind it
    have hsplit : List.range' position (Block.loop body rest).width =
        position :: (List.range' (position + 1) body.width ++
          (position + 1 + body.width) :: List.range' (position + body.width + 2) rest.width) := by
      have hwidth : (Block.loop body rest).width = body.width + (rest.width + 1) + 1 := by
        rw [Block.width]
        omega
      have hnext : position + 1 + body.width + 1 = position + body.width + 2 := by omega
      rw [hwidth, List.range'_succ, ← List.range'_append_1, List.range'_succ, hnext]
    rw [hsplit, List.filterMap_cons_some hfirst, List.filterMap_append, ihbody hbody,
      List.filterMap_cons_none hlast, ihrest hrest, Block.instrs, Block.loops, Block.size_instrs]

/-- The pairs of brackets of a program are the loops of its block. -/
theorem pairsBefore_of_spells (h : Block.Spells Run.side program.runs block) :
    program.pairsBefore program.size = block.instrs.loops 0 := by
  rw [pairsBefore, List.range_eq_range', size_eq_width h,
    filterMap_loopAt?_of_reads (reads_zero_of_spells h)]

/-- The ops of a block of runs come from ever later positions, all of them in the block. -/
theorem ascends_origins_of_reads (h : program.Reads position block) :
    Ascends position (position + block.width) (block.origins options position) := by
  induction block generalizing position with
  | done => exact Nat.le_refl _
  | op run rest ih =>
    have hpos := h.1.count_pos
    have hrest := ih h.2
    rw [Nat.add_assoc] at hrest
    exact ⟨Nat.le_refl _, hrest.mono (by omega)⟩
  | loop body rest ihbody ihrest =>
    have hbody := ihbody h.2.1
    have hrest := ihrest h.2.2.2
    have hwidth : position + (Block.loop body rest).width =
        position + body.width + 2 + rest.width := by
      rw [Block.width]
      omega
    rw [Block.origins, hwidth]
    cases (body.plain.reduce options).replacement? options with
    | some replacement => exact ⟨Nat.le_refl _, hrest.mono (by omega)⟩
    | none => exact ⟨Nat.le_refl _, hbody.append ⟨by omega, hrest⟩⟩

/-- No two ops of a compiled stream come from the same position. -/
theorem position?_inj (h : program.Reads 0 block)
    (hpositions : stream.positions.toList = block.origins options 0) {index' : Nat}
    (hindex : stream.position? index = some position)
    (hindex' : stream.position? index' = some position) : index = index' := by
  have hnodup : stream.positions.toList.Nodup := by
    rw [hpositions]
    exact (ascends_origins_of_reads h).nodup
  have hlt := (Array.getElem?_eq_some_iff.mp hindex).1
  refine (List.getElem?_inj hlt hnodup).mp ?_
  rw [Array.getElem?_toList, Array.getElem?_toList]
  exact hindex.trans hindex'.symm

/-- The loops that a block of runs compiles to come from the loops of the block, without those that
were replaced. -/
theorem map_sourcePair_loops
    (hinj : ∀ {index index' position}, stream.position? index = some position →
      stream.position? index' = some position → index = index')
    (hlaid : (block.plain.reduce options).LaidOut stream.ops index)
    (htraced : block.Traced options stream.positions index position) :
    ((block.plain.reduce options).loops index).map stream.sourcePair =
      ((block.instrs.loops position).filter fun pair => ¬ stream.SpecializedAt pair.1).map
        fun pair => (some pair.1, some pair.2) := by
  induction block generalizing index position with
  | done => rfl
  | op run rest ih =>
    rw [Block.instrs, Block.loops_foldr_op, Run.length_expand]
    exact ih hlaid.2 htraced.2
  | loop body rest ihbody ihrest =>
    rw [Block.Traced] at htraced
    rw [Block.plain] at hlaid ⊢
    rw [Block.instrs, Block.loops, Block.size_instrs, List.filter_cons]
    cases hreplacement : (body.plain.reduce options).replacement? options with
    | some replacement =>
      simp only [hreplacement] at htraced
      rw [Block.reduce_loop_of_some hreplacement] at hlaid ⊢
      -- the loop is the source of its replacement, and there is no loop in it
      have hspecialized : stream.SpecializedAt position :=
        ⟨index, replacement, hlaid.1, Block.isSpecialized_of_replacement? hreplacement, htraced.1⟩
      obtain ⟨items, hitems, -⟩ := Block.exists_items_of_replacement? hreplacement
      rw [if_neg (by simpa using hspecialized), Block.loops_instrs_of_plain_eq _ hitems]
      exact ihrest hlaid.2 htraced.2
    | none =>
      simp only [hreplacement] at htraced
      rw [Block.reduce_loop_of_none hreplacement] at hlaid ⊢
      obtain ⟨hstart, hbody, hend, hrest⟩ := hlaid
      obtain ⟨hposition, htracedBody, hposition', htracedRest⟩ := htraced
      -- the loop was kept, so that the op that comes from its start is a jump
      have hkept : ¬ stream.SpecializedAt position := by
        rintro ⟨index', op, hop, hspecialized, hindex'⟩
        obtain rfl := hinj hposition hindex'
        have hjump := hstart.symm.trans hop
        cases hjump
        cases hspecialized
      have hpair : stream.sourcePair (index, index + (body.plain.reduce options).size + 1) =
          (some position, some (position + body.width + 1)) := Prod.ext hposition hposition'
      rw [if_pos (by simpa using hkept), Block.loops, List.map_cons, List.map_cons, hpair,
        List.map_append, List.filter_append, List.map_append, ihbody hbody htracedBody,
        ihrest hrest htracedRest]

end Program

namespace Bytecode

variable {ops : Array Op} {block : Block Op} {machine stopped : Machine} {error : Error}

/-- A run of a stream that is a laid-out block fails only with an error of the machine. -/
theorem ofMachine_of_run (hops : ops.toList = block.layout 0)
    (hall : block.All fun op => op.side = none) {fuel : Nat}
    (h : run ops fuel machine = .failed error stopped) : error.OfMachine := by
  obtain ⟨visited, final, hexec, hfinal⟩ :=
    (endsWith_run_iff_exec hops hall).mp ⟨by rintro ⟨⟩, fuel, h⟩
  cases final with
  | done final => cases hfinal
  | unfinished => cases hfinal
  | failed error' final =>
    cases hfinal
    obtain ⟨op, machine, hact⟩ := hexec.exists_of_failed
    exact Op.ofMachine_of_act hact

/-- A profile has no influence on a run. -/
theorem map_runProfiled (ops : Array Op) (fuel : Nat) (machine : Machine) (profile : Profile) :
    (runProfiled ops fuel machine profile).map (·.1) = run ops fuel machine := by
  rw [run, ← map_runObserved Profile.record ops fuel ⟨0, machine⟩ profile, runProfiled]
  cases runObserved Profile.record ops fuel (⟨0, machine⟩, profile) <;> rfl

end Bytecode

/-- An error of the machine is not blamed on the stream. -/
theorem Error.OfMachine.kind_ne_stream {error : Error} (h : error.OfMachine) :
    error.kind ≠ .stream := by
  cases h with
  | offTape hoff =>
    obtain ⟨index, rfl, -⟩ := hoff
    simp [kind]
  | io => simp [kind]

namespace Program

/-- A compiled stream passes its check. Its loops come, in their order, from the pairs of brackets
of the program whose loop start is not the source of a specialized op, and without specialization
from all of them. No run of the stream, with or without a profile, finds it to be broken. -/
theorem consistent_of_compile {options : CompileOptions} {program : Program} {stream : Stream}
    (h : program.compile options = .ok stream) :
    stream.validate = .ok () ∧
    (∃ table, program.resolveJumps = .ok table ∧
      stream.loopPairs.map stream.sourcePair =
        (table.pairs.toList.filter fun pair => ¬ stream.SpecializedAt pair.1).map
          (fun pair => (some pair.1, some pair.2)) ∧
      (options.specializeLoops = false → stream.loopPairs.map stream.sourcePair =
        table.pairs.toList.map fun pair => (some pair.1, some pair.2))) ∧
    ∀ fuel machine error,
      (∀ stopped, Bytecode.run stream.ops fuel machine = .failed error stopped →
        error.kind ≠ .stream) ∧
      ∀ profile stopped, Bytecode.runProfiled stream.ops fuel machine profile =
        .failed error stopped → error.kind ≠ .stream := by
  obtain ⟨block, hspells, hops, hpositions⟩ := exists_spells_of_compile h
  have hreads := reads_zero_of_spells hspells
  have hside : (block.plain.reduce options).All fun op => op.side = none :=
    Block.all_reduce (Block.all_plain_of_spells hspells)
  refine ⟨?_, ?_,
    fun fuel machine error => ⟨fun stopped hrun => ?_, fun profile stopped hrun => ?_⟩⟩
  · rw [Stream.validate, Stream.check_of_layout hops hside]
    rfl
  · rcases program.resolveJumps_cases with
      ⟨table, htable, hresolves, -⟩ | ⟨bracket, position, hfirst, -⟩
    · have hpairs : stream.loopPairs.map stream.sourcePair =
          (table.pairs.toList.filter fun pair => ¬ stream.SpecializedAt pair.1).map
            (fun pair => (some pair.1, some pair.2)) := by
        rw [Stream.loopPairs_of_layout hops hside, hresolves.pairs_eq,
          pairsBefore_of_spells hspells]
        exact map_sourcePair_loops (position?_inj hreads hpositions)
          (Block.laidOut_of_toList_eq hops)
          (Block.traced_of_append [] [] (by simpa using hpositions))
      refine ⟨table, htable, hpairs, fun hoff => ?_⟩
      rw [Block.reduce_of_not_specializeLoops hoff] at hops
      rw [hpairs, List.filter_eq_self.mpr fun pair _ => by
        simpa using Stream.not_specializedAt_of_layout hops pair.1]
    · exact absurd (balanced_of_compile h) hfirst.not_balanced
  · exact (Bytecode.ofMachine_of_run hops hside hrun).kind_ne_stream
  · have hplain := Bytecode.map_runProfiled stream.ops fuel machine profile
    rw [hrun, Outcome.map_failed] at hplain
    exact (Bytecode.ofMachine_of_run hops hside hplain.symm).kind_ne_stream

/-- Of two nested loops the inner one clears a cell and is replaced. The outer one is left, with its
brackets closer together than in the program. -/
theorem consistent_of_compile_clearInside :
    ∃ stream table,
      compile {} ⟨#[.loopStart, .right, .loopStart, .decrement, .loopEnd, .loopEnd]⟩ = .ok stream ∧
      resolveJumps ⟨#[.loopStart, .right, .loopStart, .decrement, .loopEnd, .loopEnd]⟩ =
        .ok table ∧
      stream.validate = .ok () ∧ stream.loopPairs = [(0, 3)] ∧
      table.pairs = #[(0, 5), (2, 4)] ∧
      (table.pairs.toList.filter fun pair => ¬ stream.SpecializedAt pair.1) = [(0, 5)] ∧
      stream.loopPairs.map stream.sourcePair =
        (table.pairs.toList.filter fun pair => ¬ stream.SpecializedAt pair.1).map
          fun pair => (some pair.1, some pair.2) := by
  have hcompile : compile {} ⟨#[.loopStart, .right, .loopStart, .decrement, .loopEnd, .loopEnd]⟩ =
      .ok ⟨#[.jumpIfZero 3, .forward 1, .setZero, .jumpIfNotZero 0], #[0, 1, 2, 5], ⟨1, 0, 0, 1⟩,
        rfl⟩ := rfl
  obtain ⟨hvalid, ⟨table, htable, hpairs, -⟩, -⟩ := consistent_of_compile hcompile
  have hresolve : resolveJumps
      ⟨#[.loopStart, .right, .loopStart, .decrement, .loopEnd, .loopEnd]⟩ =
      .ok ⟨#[some 5, none, some 4, none, some 2, some 0], #[(0, 5), (2, 4)]⟩ := by
    cbv
  rw [hresolve] at htable
  cases htable
  exact ⟨_, _, hcompile, hresolve, hvalid, rfl, rfl, by decide, hpairs⟩

end Program

end TapeLang

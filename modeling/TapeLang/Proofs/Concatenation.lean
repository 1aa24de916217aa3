import TapeLang.Proofs.Relinking

/-!
# Compiling the parts of a program

Compiling does not look beyond the part of a program that is compiled. Two programs that are
written one after the other become the ops of the first and then those of the second, and a program
in brackets becomes its ops between two jumps, or the one op that replaces them. What stands in
front of ops only moves the targets of their jumps and the positions that they come from.

## Main definitions

* `Program.Seamless`: two programs do not share a run when one is written behind the other.
* `Stream.append`: a stream behind another one.
* `Stream.collapse`, `Stream.enclose`: a loop that is replaced by an op, and one that is kept.
* `Stream.loop`: what becomes of a loop, given the stream of its body.

## Main results

* `Program.compile_eq_of_spells`: a program compiles to the stream of the block that its runs spell.
* `Program.runs_append` and `Program.runs_loop`: how a program is cut into runs, from its parts.
* `Program.compile_parts`: how a program compiles, from its parts.
-/

namespace TapeLang

/-- The op with the target of its jump moved. -/
def Op.moved (distance : Nat) : Op → Op
  | .jumpIfZero target => .jumpIfZero (target + distance)
  | .jumpIfNotZero target => .jumpIfNotZero (target + distance)
  | op => op

/-- An op that is no jump has no target to be moved. -/
theorem Op.moved_of_side_eq_none {op : Op} (h : op.side = none) (distance : Nat) :
    op.moved distance = op := by
  cases op <;> first | rfl | cases h

namespace Block

variable {α : Type} {side : α → Option Bracket} {options : CompileOptions}

/-- A block, and another one behind it. -/
def append : Block α → Block α → Block α
  | done, more => more
  | op item rest, more => .op item (rest.append more)
  | loop body rest, more => .loop body (rest.append more)

/-- Two sequences spell their blocks one behind the other. -/
theorem Spells.append {items others : List α} {block more : Block α}
    (h : Spells side items block) (hmore : Spells side others more) :
    Spells side (items ++ others) (block.append more) := by
  induction h with
  | done => exact hmore
  | op hitem _ ih => exact .op hitem ih
  | loop hopening hclosing hbody _ _ ih =>
    rw [List.cons_append, List.append_assoc, List.cons_append]
    exact .loop hopening hclosing hbody ih

/-- Loops are replaced in both blocks. -/
theorem reduce_append (block more : Block Op) :
    (block.append more).reduce options = (block.reduce options).append (more.reduce options) := by
  induction block with
  | done => rfl
  | op item rest ih => rw [append, reduce, reduce, ih, append]
  | loop body rest _ ih =>
    rw [append]
    cases hreplacement : (body.reduce options).replacement? options with
    | some replacement =>
      rw [reduce_loop_of_some hreplacement, reduce_loop_of_some hreplacement, ih, append]
    | none => rw [reduce_loop_of_none hreplacement, reduce_loop_of_none hreplacement, ih, append]

/-- The runs of both blocks become ops. -/
theorem plain_append (block more : Block Run) :
    (block.append more).plain = block.plain.append more.plain := by
  induction block with
  | done => rfl
  | op run rest ih => rw [append, plain, plain, ih, append]
  | loop body rest _ ih => rw [append, plain, plain, ih, append]

/-- The second block is laid out behind the first. -/
theorem layout_append (start : Nat) (block more : Block Op) :
    (block.append more).layout start = block.layout start ++ more.layout (start + block.size) := by
  induction block generalizing start with
  | done => rfl
  | op item rest ih =>
    rw [append, layout, ih, layout, size, List.cons_append]
    congr 3
    omega
  | loop body rest _ ih =>
    rw [append, layout, ih, layout, size, List.cons_append, List.append_assoc, List.cons_append]
    congr 5
    omega

/-- A block that is laid out further on has the targets of its jumps moved. -/
theorem layout_add {block : Block Op} (h : block.All fun op => op.side = none)
    (start distance : Nat) :
    block.layout (start + distance) = (block.layout start).map (Op.moved distance) := by
  induction block generalizing start with
  | done => rfl
  | op item rest ih =>
    rw [layout, layout, List.map_cons, Op.moved_of_side_eq_none h.1, ← ih h.2, Nat.add_right_comm]
  | loop body rest ihbody ihrest =>
    have hbody := ihbody h.1 (start + 1)
    have hrest := ihrest h.2 (start + body.size + 2)
    rw [layout, layout, List.map_cons, List.map_append, List.map_cons, ← hbody, ← hrest]
    simp only [Op.moved, Nat.add_right_comm _ distance]

/-- The instructions of the second block come from behind those of the first. -/
theorem origins_append (position : Nat) (block more : Block Run) :
    (block.append more).origins options position =
      block.origins options position ++ more.origins options (position + block.width) := by
  induction block generalizing position with
  | done => rfl
  | op run rest ih =>
    rw [append, origins, ih, origins, width, List.cons_append, Nat.add_assoc]
  | loop body rest _ ih =>
    have hwidth : position + body.width + 2 + rest.width =
        position + (Block.loop body rest).width := by
      rw [width]
      omega
    rw [append, origins, origins, ih, hwidth]
    cases (body.plain.reduce options).replacement? options with
    | some replacement => rw [List.cons_append]
    | none => rw [List.cons_append, List.append_assoc, List.cons_append]

/-- The ops of a block of runs that stands further on come from further on. -/
theorem origins_add (options : CompileOptions) (position distance : Nat) (block : Block Run) :
    block.origins options (position + distance) =
      (block.origins options position).map (· + distance) := by
  induction block generalizing position with
  | done => rfl
  | op run rest ih =>
    rw [origins, origins, List.map_cons, ← ih, Nat.add_right_comm]
  | loop body rest ihbody ihrest =>
    have hbody := ihbody (position + 1)
    have hrest := ihrest (position + body.width + 2)
    rw [origins, origins]
    cases (body.plain.reduce options).replacement? options with
    | some replacement =>
      simp only [List.map_cons, ← hrest, Nat.add_right_comm _ distance]
    | none =>
      simp only [List.map_cons, List.map_append, ← hbody, ← hrest, Nat.add_right_comm _ distance]

/-- The loops of both blocks are counted. -/
theorem loopStats_append (block more : Block Run) :
    (block.append more).loopStats options = block.loopStats options + more.loopStats options := by
  induction block with
  | done => exact (LoopStats.zero_add _).symm
  | op run rest ih => rw [append, loopStats, ih, loopStats]
  | loop body rest _ ih =>
    rw [append, loopStats, loopStats, ih]
    cases (body.plain.reduce options).replacement? options with
    | some replacement => exact (LoopStats.add_assoc _ _ _).symm
    | none => exact (LoopStats.add_assoc _ _ _).symm

/-- The stream that a block of runs compiles to. -/
def stream (options : CompileOptions) (block : Block Run) : Stream where
  ops := ((block.plain.reduce options).layout 0).toArray
  positions := (block.origins options 0).toArray
  stats := block.loopStats options
  size_positions := by simp

end Block

namespace Stream

/-- A stream, and behind it another one. The program that the first is compiled from has `length`
instructions. -/
def append (stream : Stream) (length : Nat) (more : Stream) : Stream where
  ops := stream.ops ++ more.ops.map (Op.moved stream.size)
  positions := stream.positions ++ more.positions.map (· + length)
  stats := stream.stats + more.stats
  size_positions := by simp [stream.size_positions, more.size_positions]

/-- The one op that replaces a loop, given the stream of its body. It comes from where the loop
starts, and the loop is counted under its kind. -/
def collapse (body : Stream) (op : Op) : Stream where
  ops := #[op]
  positions := #[0]
  stats :=
    { setZero := body.stats.setZero + if op.kind = .setZero then 1 else 0
      scanUntilZero := body.stats.scanUntilZero + if op.kind = .scanUntilZero then 1 else 0
      transferAndZero := body.stats.transferAndZero + if op.kind = .transferAndZero then 1 else 0
      plainLoops := body.stats.plainLoops }
  size_positions := rfl

/-- A stream between two jumps, which are one more loop that is kept. The program that it is
compiled from has `length` instructions. -/
def enclose (stream : Stream) (length : Nat) : Stream where
  ops := #[.jumpIfZero (stream.size + 1)] ++ stream.ops.map (Op.moved 1) ++ #[.jumpIfNotZero 0]
  positions := #[0] ++ stream.positions.map (· + 1) ++ #[length + 1]
  stats := { stream.stats with plainLoops := stream.stats.plainLoops + 1 }
  size_positions := by simp [stream.size_positions]

/-- What becomes of a loop, given the stream of its body: a single op, if the body has a known
effect and loops are to be replaced, and otherwise the body between two jumps. -/
def loop (options : CompileOptions) (body : Stream) (length : Nat) : Stream :=
  let replacement :=
    if options.specializeLoops then specialize options.strictZeroing body.ops.toList else none
  match replacement with
  | some op => body.collapse op
  | none => body.enclose length

end Stream

namespace Block

variable {options : CompileOptions} {block more : Block Run}

/-- There are as many ops in a stream as items and brackets in its block. -/
theorem size_stream (block : Block Run) :
    (block.stream options).size = (block.plain.reduce options).size := by
  simp [stream, Stream.size]

/-- One block behind the other compiles to one stream behind the other. -/
theorem stream_append (hmore : more.plain.All fun op => op.side = none) :
    (block.append more).stream options =
      (block.stream options).append block.width (more.stream options) := by
  refine Stream.ext (Array.toList_inj.mp ?_) (Array.toList_inj.mp ?_) ?_
  · have hside : (more.plain.reduce options).All fun op => op.side = none := all_reduce hmore
    have hmoved := layout_add hside 0 (block.plain.reduce options).size
    simp only [Stream.append, Array.toList_append, Array.toList_map, size_stream]
    simp only [stream]
    rw [plain_append, reduce_append, layout_append, ← hmoved, Nat.zero_add]
  · have hmoved := more.origins_add options 0 block.width
    simp only [Stream.append, Array.toList_append, Array.toList_map]
    simp only [stream]
    rw [origins_append, ← hmoved, Nat.zero_add]
  · exact loopStats_append block more

/-- A loop compiles to what becomes of the loop, given the stream of its body. -/
theorem stream_loop (hblock : block.plain.All fun op => op.side = none) :
    (Block.loop block .done).stream options =
      (block.stream options).loop options block.width := by
  -- the body has no loops, so that it is specialized from the ops it is laid out as
  have hreplacement : (block.plain.reduce options).replacement? options =
      if options.specializeLoops then
        specialize options.strictZeroing (block.stream options).ops.toList
      else none := by
    rw [replacement?, stream, specialize_layout]
  rw [Stream.loop, ← hreplacement]
  cases h : (block.plain.reduce options).replacement? options with
  | some replacement =>
    refine Stream.ext ?_ ?_ ?_
    · simp only [stream, plain, reduce_loop_of_some h]
      rfl
    · simp only [stream, origins, h]
      rfl
    · simp only [stream, loopStats, h]
      rw [LoopStats.add_zero, LoopStats.record_eq_of_kind]
      rfl
  | none =>
    have hside : (block.plain.reduce options).All fun op => op.side = none := all_reduce hblock
    have hops := layout_add hside 0 1
    have hpositions := block.origins_add options 0 1
    refine Stream.ext ?_ ?_ ?_
    · simp only [stream, plain, reduce_loop_of_none h, reduce, layout]
      simp [Stream.enclose, Stream.size, hops]
    · simp only [stream, origins, h]
      simp [Stream.enclose, hpositions]
    · simp only [stream, loopStats, h]
      rw [LoopStats.add_zero]
      rfl

end Block

namespace Program

/-- Programs are written one behind the other. -/
instance : Append Program where
  append program more := ⟨program.instrs ++ more.instrs⟩

/-- The program in brackets. -/
def loop (program : Program) : Program :=
  ⟨#[.loopStart] ++ program.instrs ++ #[.loopEnd]⟩

/-- The last instruction of a program and the first one of another are not the same, unless they
are brackets. -/
def Seamless (program more : Program) : Prop :=
  ∀ instr, program.instrs.back? = some instr → more.instrs[0]? = some instr → instr.side ≠ none

variable {options : CompileOptions} {program more : Program} {stream stream' : Stream}
  {block : Block Run}

/-- A program compiles to the stream of the block that its runs spell. -/
theorem compile_eq_of_spells (options : CompileOptions)
    (h : Block.Spells Run.side program.runs block) :
    program.compile options = .ok (block.stream options) := by
  obtain ⟨stream, hcompile, hops, hpositions, hstats⟩ := compile_and_count_of_spells options h
  rw [hcompile, Stream.ext (x := stream) (y := block.stream options)]
  · exact Array.toList_inj.mp hops
  · exact Array.toList_inj.mp hpositions
  · exact hstats

/-- A program that compiles has its runs nested, and compiles to the stream of their block. -/
theorem exists_spells_eq_of_compile (h : program.compile options = .ok stream) :
    ∃ block, Block.Spells Run.side program.runs block ∧ stream = block.stream options := by
  obtain ⟨block, hspells⟩ := exists_spells_of_balanced (balanced_of_compile h)
  exact ⟨block, hspells, Except.ok.inj (h.symm.trans (compile_eq_of_spells options hspells))⟩

/-- The last instruction of a program is that of its last run. -/
theorem getLast?_of_mem_runs {last : Run} (h : last ∈ program.runs.getLast?) :
    program.instrs.back? = some last.instr := by
  obtain ⟨front, hfront⟩ := List.getLast?_eq_some_iff.mp h
  have hcount := (program.proper_of_mem_runs last (by simp [hfront])).count_pos
  have hinstrs := program.expand_runs
  rw [hfront, List.flatMap_append, List.flatMap_singleton, Run.expand] at hinstrs
  rw [← Array.getLast?_toList, ← hinstrs, List.getLast?_append_of_ne_nil]
  · simp [List.getLast?_replicate, hcount.ne']
  · simp [hcount.ne']

/-- The first instruction of a program is that of its first run. -/
theorem getElem?_zero_of_mem_runs {first : Run} (h : first ∈ program.runs.head?) :
    program.instrs[0]? = some first.instr := by
  obtain ⟨rest, hrest⟩ := List.head?_eq_some_iff.mp h
  have hcount := (program.proper_of_mem_runs first (by simp [hrest])).count_pos
  have hinstrs := program.expand_runs
  rw [hrest, List.flatMap_cons, Run.expand] at hinstrs
  rw [← Array.getElem?_toList, ← hinstrs, List.getElem?_append_left (by simpa using hcount)]
  simp [hcount]

/-- The runs of two programs are those of the one behind the other, if they share none. -/
theorem runs_append (h : program.Seamless more) :
    (program ++ more).runs = program.runs ++ more.runs := by
  apply runs_eq
  · exact List.forall_mem_append.mpr ⟨program.proper_of_mem_runs, more.proper_of_mem_runs⟩
  · refine List.isChain_append.mpr ⟨program.isChain_runs, more.isChain_runs, ?_⟩
    intro last hlast first hfirst hside heq
    exact h last.instr (getLast?_of_mem_runs hlast)
      (heq ▸ getElem?_zero_of_mem_runs hfirst) hside
  · rw [List.flatMap_append, expand_runs, expand_runs]
    exact Array.toList_append.symm

/-- The brackets around a program are runs by themselves. -/
theorem runs_loop (program : Program) :
    program.loop.runs = ⟨.loopStart, 1⟩ :: (program.runs ++ [⟨.loopEnd, 1⟩]) := by
  apply runs_eq
  · refine List.forall_mem_cons.mpr ⟨⟨Nat.one_pos, fun _ => rfl⟩, List.forall_mem_append.mpr
      ⟨program.proper_of_mem_runs, List.forall_mem_singleton.mpr ⟨Nat.one_pos, fun _ => rfl⟩⟩⟩
  · refine List.isChain_cons.mpr ⟨fun next _ hside => absurd hside (by decide), ?_⟩
    refine List.isChain_append.mpr ⟨program.isChain_runs, List.isChain_singleton _, ?_⟩
    intro last _ next hnext
    obtain rfl : next = ⟨.loopEnd, 1⟩ := (Option.some.inj hnext).symm
    exact Run.apart_of_side (by decide)
  · rw [List.flatMap_cons, List.flatMap_append, expand_runs]
    simp [loop, Run.expand]

/-- How a program compiles, from its parts. Two programs that compile, and that do not share a run
when they are written one behind the other, compile to their streams one behind the other: the
jumps of the second are moved by the number of ops of the first, the positions by its length, and
the loops are counted together. A program that compiles does so in brackets: if loops are to be
replaced and its ops have a known effect, to the one op that replaces them, under whose kind there
is one loop more, and otherwise to its ops between two jumps, with one more loop that is kept. -/
theorem compile_parts (options : CompileOptions) :
    (∀ program more stream stream', compile options program = .ok stream →
      compile options more = .ok stream' → program.Seamless more →
      compile options (program ++ more) = .ok (stream.append program.size stream')) ∧
    ∀ program stream, compile options program = .ok stream →
      compile options program.loop = .ok (stream.loop options program.size) := by
  refine ⟨fun program more stream stream' hprogram hmore hseamless => ?_,
    fun program stream hprogram => ?_⟩
  · obtain ⟨block, hspells, rfl⟩ := exists_spells_eq_of_compile hprogram
    obtain ⟨block', hspells', rfl⟩ := exists_spells_eq_of_compile hmore
    have hboth := hspells.append hspells'
    rw [← runs_append hseamless] at hboth
    rw [compile_eq_of_spells options hboth, size_eq_width hspells,
      Block.stream_append (Block.all_plain_of_spells hspells')]
  · obtain ⟨block, hspells, rfl⟩ := exists_spells_eq_of_compile hprogram
    have hloop : Block.Spells Run.side program.loop.runs (.loop block .done) := by
      rw [runs_loop]
      exact .loop rfl rfl hspells .done
    rw [compile_eq_of_spells options hloop, size_eq_width hspells,
      Block.stream_loop (Block.all_plain_of_spells hspells)]

/-- Two programs with a loop each, one behind the other and one in brackets: the jumps lead as far
as they did, from other places. A loop of each kind that is replaced is counted under that kind, and
one around a loop that has been replaced is kept. -/
theorem compile_parts_echo :
    compile {} (⟨#[.read, .loopStart, .write, .read, .loopEnd]⟩ ++
        ⟨#[.loopStart, .right, .write, .loopEnd]⟩) =
      .ok ⟨#[.read 1, .jumpIfZero 4, .write 1, .read 1, .jumpIfNotZero 1, .jumpIfZero 8,
        .forward 1, .write 1, .jumpIfNotZero 5], #[0, 1, 2, 3, 4, 5, 6, 7, 8], ⟨0, 0, 0, 2⟩, rfl⟩ ∧
    compile {} (loop ⟨#[.loopStart, .right, .write, .loopEnd]⟩) =
      .ok ⟨#[.jumpIfZero 5, .jumpIfZero 4, .forward 1, .write 1, .jumpIfNotZero 1,
        .jumpIfNotZero 0], #[0, 1, 2, 3, 4, 5], ⟨0, 0, 0, 2⟩, rfl⟩ ∧
    compile {} (loop ⟨#[.decrement]⟩) = .ok ⟨#[.setZero], #[0], ⟨1, 0, 0, 0⟩, rfl⟩ ∧
    compile {} (loop ⟨#[.right, .right]⟩) = .ok ⟨#[.scanUntilZero 2], #[0], ⟨0, 1, 0, 0⟩, rfl⟩ ∧
    compile {} (loop ⟨#[.decrement, .left, .increment, .right]⟩) =
      .ok ⟨#[.transferAndZero (-1)], #[0], ⟨0, 0, 1, 0⟩, rfl⟩ ∧
    compile {} (loop (loop ⟨#[.decrement]⟩)) =
      .ok ⟨#[.jumpIfZero 2, .setZero, .jumpIfNotZero 0], #[0, 1, 4], ⟨1, 0, 0, 1⟩, rfl⟩ := by
  obtain ⟨happend, hloop⟩ := compile_parts {}
  have hfirst : compile {} ⟨#[.read, .loopStart, .write, .read, .loopEnd]⟩ =
      .ok ⟨#[.read 1, .jumpIfZero 4, .write 1, .read 1, .jumpIfNotZero 1], #[0, 1, 2, 3, 4],
        ⟨0, 0, 0, 1⟩, rfl⟩ := rfl
  have hsecond : compile {} ⟨#[.loopStart, .right, .write, .loopEnd]⟩ =
      .ok ⟨#[.jumpIfZero 3, .forward 1, .write 1, .jumpIfNotZero 0], #[0, 1, 2, 3],
        ⟨0, 0, 0, 1⟩, rfl⟩ := rfl
  have hseamless : Seamless ⟨#[.read, .loopStart, .write, .read, .loopEnd]⟩
      ⟨#[.loopStart, .right, .write, .loopEnd]⟩ := by
    intro instr hlast
    cases hlast
    decide
  -- the bodies of the loops that are replaced have no loops in them
  have hclear : compile {} ⟨#[.decrement]⟩ = .ok ⟨#[.sub 1], #[0], ⟨0, 0, 0, 0⟩, rfl⟩ := rfl
  have hscan : compile {} ⟨#[.right, .right]⟩ =
      .ok ⟨#[.forward 2], #[0], ⟨0, 0, 0, 0⟩, rfl⟩ := rfl
  have htransfer : compile {} ⟨#[.decrement, .left, .increment, .right]⟩ =
      .ok ⟨#[.sub 1, .backward 1, .add 1, .forward 1], #[0, 1, 2, 3], ⟨0, 0, 0, 0⟩, rfl⟩ := rfl
  have hcleared : compile {} (loop ⟨#[.decrement]⟩) =
      .ok ⟨#[.setZero], #[0], ⟨1, 0, 0, 0⟩, rfl⟩ := hloop _ _ hclear
  refine ⟨?_, ?_, hcleared, hloop _ _ hscan, hloop _ _ htransfer, ?_⟩
  · rw [happend _ _ _ _ hfirst hsecond hseamless]
    simp [Stream.append, Stream.size, Op.moved, size, LoopStats.add_def]
  · rw [hloop _ _ hsecond]
    simp [Stream.loop, specialize, Stream.enclose, Stream.size, Op.moved, size]
  · rw [hloop _ _ hcleared]
    simp [Stream.loop, specialize, Stream.enclose, Stream.size, Op.moved, size, loop]

end Program

end TapeLang

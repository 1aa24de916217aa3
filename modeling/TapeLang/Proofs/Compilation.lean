import TapeLang.Interpreter.Bytecode
import TapeLang.Proofs.Source
import TapeLang.Stream.Compile

/-!
# Compiled programs as blocks of ops

Compiling goes through the runs of a program from left to right, with a stack of open loops. What
it makes is said here without the stack: the block of the runs becomes a block of ops, the loops
that can be replaced are replaced from the inside out, and the result is laid out with jumps.

* `Program.compile_of_spells`: what a program whose runs have a nesting compiles to.
* `Program.exists_spells_of_compile`: no other program compiles.
* `Bytecode.stepsTo_step`: what one step of the op-stream interpreter can come to.
* `Bytecode.endsWith_iff_exec`: the op-stream interpreter runs the block that is laid out.
-/

namespace TapeLang

/-- The op that a run becomes. Brackets become no op by themselves; what is given for them is never
used. -/
def Run.op (run : Run) : Op :=
  match run.instr with
  | .right => .forward run.count
  | .left => .backward run.count
  | .increment => .add run.count
  | .decrement => .sub run.count
  | .write => .write run.count
  | .read => .read run.count
  | .loopStart => .jumpIfZero 0
  | .loopEnd => .jumpIfNotZero 0

namespace LoopStats

/-- The loops of two programs are counted together, kind by kind. -/
instance : Add LoopStats where
  add stats more := ⟨stats.setZero + more.setZero, stats.scanUntilZero + more.scanUntilZero,
    stats.transferAndZero + more.transferAndZero, stats.plainLoops + more.plainLoops⟩

/-- The sum of two counts, kind by kind. -/
theorem add_def (stats more : LoopStats) : stats + more =
    ⟨stats.setZero + more.setZero, stats.scanUntilZero + more.scanUntilZero,
      stats.transferAndZero + more.transferAndZero, stats.plainLoops + more.plainLoops⟩ := rfl

@[simp]
theorem add_zero (stats : LoopStats) : stats + zero = stats := rfl

@[simp]
theorem zero_add (stats : LoopStats) : zero + stats = stats := by
  simp [add_def, zero]

theorem add_assoc (stats more others : LoopStats) :
    stats + more + others = stats + (more + others) := by
  simp [add_def, Nat.add_assoc]

/-- A loop that is replaced may be counted with either part. -/
theorem record_add (stats more : LoopStats) (op : Op) :
    (stats + more).record op = stats + more.record op := by
  cases op <;> rfl

/-- So may a loop that is kept. -/
theorem recordPlain_add (stats more : LoopStats) :
    (stats + more).recordPlain = stats + more.recordPlain := rfl

end LoopStats

/-- A run and its op stand on the same side of a loop. -/
@[simp]
theorem Run.side_op (run : Run) : run.op.side = run.side := by
  obtain ⟨instr, count⟩ := run
  cases instr <;> rfl

namespace Block

variable {α : Type}

/-- The items of a block without loops. -/
def straight? : Block α → Option (List α)
  | done => some []
  | op item rest => rest.straight?.map (item :: ·)
  | loop .. => none

/-- The op that replaces a loop with this body, if it is to be replaced. -/
def replacement? (options : CompileOptions) (body : Block Op) : Option Op :=
  if options.specializeLoops then body.straight?.bind (specialize options.strictZeroing) else none

/-- The block in which each loop that can be replaced is replaced, inner loops first. -/
def reduce (options : CompileOptions) : Block Op → Block Op
  | done => .done
  | op item rest => .op item (rest.reduce options)
  | loop body rest =>
    match (body.reduce options).replacement? options with
    | some replacement => .op replacement (rest.reduce options)
    | none => .loop (body.reduce options) (rest.reduce options)

/-- The ops of a block that is laid out from an index on, with a jump for each bracket. -/
def layout : Nat → Block Op → List Op
  | _, done => []
  | start, op item rest => item :: rest.layout (start + 1)
  | start, loop body rest =>
    .jumpIfZero (start + body.size + 1) ::
      (body.layout (start + 1) ++ .jumpIfNotZero start :: rest.layout (start + body.size + 2))

/-- The ops of a block of runs. -/
def plain : Block Run → Block Op
  | done => .done
  | op run rest => .op run.op rest.plain
  | loop body rest => .loop body.plain rest.plain

/-- The source position of each op that a block of runs at a position compiles to. -/
def origins (options : CompileOptions) : Nat → Block Run → List Nat
  | _, done => []
  | position, op run rest => position :: origins options (position + run.count) rest
  | position, loop body rest =>
    match (body.plain.reduce options).replacement? options with
    | some _ => position :: origins options (position + body.width + 2) rest
    | none => position :: (origins options (position + 1) body ++
        (position + body.width + 1) :: origins options (position + body.width + 2) rest)

/-- What becomes of the loops of a block of runs. -/
def loopStats (options : CompileOptions) : Block Run → LoopStats
  | done => .zero
  | op _ rest => rest.loopStats options
  | loop body rest =>
    match (body.plain.reduce options).replacement? options with
    | some replacement => (body.loopStats options).record replacement + rest.loopStats options
    | none => (body.loopStats options).recordPlain + rest.loopStats options

/-- Without specialization nothing is replaced. -/
theorem reduce_of_not_specializeLoops {options : CompileOptions}
    (h : options.specializeLoops = false) (block : Block Op) : block.reduce options = block := by
  induction block with
  | done => rfl
  | op item rest ih => rw [reduce, ih]
  | loop body rest ihbody ihrest => simp [reduce, replacement?, h, ihbody, ihrest]

/-- A loop that is replaced leaves its replacement. -/
theorem reduce_loop_of_some {options : CompileOptions} {body rest : Block Op} {replacement : Op}
    (h : (body.reduce options).replacement? options = some replacement) :
    (loop body rest).reduce options = .op replacement (rest.reduce options) := by
  rw [reduce, h]

/-- A loop that is not replaced stays. -/
theorem reduce_loop_of_none {options : CompileOptions} {body rest : Block Op}
    (h : (body.reduce options).replacement? options = none) :
    (loop body rest).reduce options = .loop (body.reduce options) (rest.reduce options) := by
  rw [reduce, h]

/-- A block is laid out as so many ops as it has items. -/
@[simp]
theorem length_layout (start : Nat) (block : Block Op) :
    (block.layout start).length = block.size := by
  induction block generalizing start with
  | done => rfl
  | op item rest ih => rw [layout, List.length_cons, ih, size]
  | loop body rest ihbody ihrest =>
    rw [layout, List.length_cons, List.length_append, List.length_cons, ihbody, ihrest, size]
    omega

/-- A block without loops is laid out as its items. -/
theorem layout_of_straight? {block : Block Op} {ops : List Op} (start : Nat)
    (h : block.straight? = some ops) : block.layout start = ops := by
  induction block generalizing start ops with
  | done =>
    cases h
    rfl
  | op item rest ih =>
    obtain ⟨later, hlater, rfl⟩ := Option.map_eq_some_iff.mp h
    rw [layout, ih (start + 1) hlater]
  | loop body rest => cases h

/-- A block with a loop is laid out with a jump. -/
theorem exists_jump_of_straight? {block : Block Op} (start : Nat) (h : block.straight? = none) :
    ∃ target, Op.jumpIfZero target ∈ block.layout start := by
  induction block generalizing start with
  | done => cases h
  | op item rest ih =>
    obtain ⟨target, hmem⟩ := ih (start + 1) (Option.map_eq_none_iff.mp h)
    exact ⟨target, List.mem_cons_of_mem _ hmem⟩
  | loop body rest => exact ⟨_, List.mem_cons_self⟩

end Block

/-- A loop body with a jump has no replacement. -/
theorem specialize_eq_none_of_mem {strict : Bool} {body : List Op} {target : Nat}
    (h : .jumpIfZero target ∈ body) : specialize strict body = none := by
  unfold specialize
  split <;> first | rfl | simp at h

/-- Whether a body that is laid out can be replaced is seen from the block. -/
theorem specialize_layout (strict : Bool) (start : Nat) (block : Block Op) :
    specialize strict (block.layout start) = block.straight?.bind (specialize strict) := by
  cases h : block.straight? with
  | none =>
    obtain ⟨target, hmem⟩ := Block.exists_jump_of_straight? start h
    exact specialize_eq_none_of_mem hmem
  | some ops =>
    rw [Block.layout_of_straight? start h]
    rfl

namespace Stream

variable {options : CompileOptions} {stream : Stream} {before : List Op} {body : Block Op}

/-- What replaces the loop at the end of a stream is what replaces its body as a block. -/
theorem replacement_of_ops_eq (options : CompileOptions)
    (hops : stream.ops.toList = before ++ .jumpIfZero 0 :: body.layout (before.length + 1)) :
    (if options.specializeLoops then stream.specializeFrom options.strictZeroing before.length
      else none) = body.replacement? options := by
  have hextract : (stream.ops.extract (before.length + 1) stream.size).toList =
      body.layout (before.length + 1) := by
    rw [Array.toList_extract, hops, List.extract, ← List.drop_drop, List.drop_left, List.drop_one,
      List.tail_cons, List.take_of_length_le]
    rw [size, ← Array.length_toList, hops, List.length_append, List.length_cons]
    omega
  rw [specializeFrom_eq, hextract, specialize_layout, Block.replacement?]

/-- A loop that can be replaced is taken off the stream, and its replacement put there. -/
theorem closeLoop_of_some {positions inner : List Nat} {position closing : Nat} {replacement : Op}
    (hops : stream.ops.toList = before ++ .jumpIfZero 0 :: body.layout (before.length + 1))
    (hpositions : stream.positions.toList = positions ++ position :: inner)
    (hlength : positions.length = before.length)
    (h : body.replacement? options = some replacement) :
    (stream.closeLoop options ⟨before.length, position⟩ closing).ops.toList =
        before ++ [replacement] ∧
      (stream.closeLoop options ⟨before.length, position⟩ closing).positions.toList =
        positions ++ [position] ∧
      (stream.closeLoop options ⟨before.length, position⟩ closing).stats =
        stream.stats.record replacement := by
  have hreplacement := (replacement_of_ops_eq options hops).trans h
  simp only [closeLoop, hreplacement]
  simp [push, take, hops, hpositions, ← hlength]

/-- A loop that cannot be replaced gets a second jump, and both jumps their targets. -/
theorem closeLoop_of_none {positions inner : List Nat} {position closing : Nat}
    (hops : stream.ops.toList = before ++ .jumpIfZero 0 :: body.layout (before.length + 1))
    (hpositions : stream.positions.toList = positions ++ position :: inner)
    (h : body.replacement? options = none) :
    (stream.closeLoop options ⟨before.length, position⟩ closing).ops.toList =
        before ++ (Block.loop body .done).layout before.length ∧
      (stream.closeLoop options ⟨before.length, position⟩ closing).positions.toList =
        positions ++ position :: (inner ++ [closing]) ∧
      (stream.closeLoop options ⟨before.length, position⟩ closing).stats =
        stream.stats.recordPlain := by
  have hreplacement := (replacement_of_ops_eq options hops).trans h
  have hsize : stream.size = before.length + body.size + 1 := by
    rw [size, ← Array.length_toList, hops, List.length_append, List.length_cons,
      Block.length_layout, Nat.add_assoc]
  simp only [closeLoop, hreplacement]
  simp [push, replace, hops, hpositions, hsize, Block.layout]

end Stream

namespace Compilation

/-- From one state of a compilation to another `width` instructions were compiled, and their ops,
with their positions, were added to the stream, and their loops to its counts; the loops that were
open before are open after. -/
structure Appends (state : Compilation) (width : Nat) (ops : List Op) (positions : List Nat)
    (stats : LoopStats) (final : Compilation) : Prop where
  /-- The compilation goes on behind the instructions. -/
  position_eq : final.position = state.position + width
  /-- The ops are new at the end of the stream. -/
  ops_eq : final.stream.ops.toList = state.stream.ops.toList ++ ops
  /-- So are their positions. -/
  positions_eq : final.stream.positions.toList = state.stream.positions.toList ++ positions
  /-- The loops that have ended are counted. -/
  stats_eq : final.stream.stats = state.stream.stats + stats
  /-- The same loops are open. -/
  opened_eq : final.opened = state.opened

variable {options : CompileOptions} {state middle final : Compilation}

/-- Nothing is added by compiling nothing. -/
theorem Appends.refl (state : Compilation) : state.Appends 0 [] [] .zero state :=
  ⟨rfl, by simp, by simp, rfl, rfl⟩

/-- What is compiled in two parts is added one part after the other. -/
theorem Appends.trans {width width' : Nat} {ops ops' : List Op} {positions positions' : List Nat}
    {stats stats' : LoopStats} (h : state.Appends width ops positions stats middle)
    (h' : middle.Appends width' ops' positions' stats' final) :
    state.Appends (width + width') (ops ++ ops') (positions ++ positions') (stats + stats')
      final := by
  refine ⟨?_, ?_, ?_, ?_, ?_⟩
  · rw [h'.position_eq, h.position_eq, Nat.add_assoc]
  · rw [h'.ops_eq, h.ops_eq, List.append_assoc]
  · rw [h'.positions_eq, h.positions_eq, List.append_assoc]
  · rw [h'.stats_eq, h.stats_eq, LoopStats.add_assoc]
  · rw [h'.opened_eq, h.opened_eq]

/-- The stream grows by the ops that are added. -/
theorem Appends.size_eq {width : Nat} {ops : List Op} {positions : List Nat} {stats : LoopStats}
    (h : state.Appends width ops positions stats final) :
    final.stream.size = state.stream.size + ops.length := by
  rw [Stream.size, ← Array.length_toList, h.ops_eq, List.length_append, Array.length_toList,
    Stream.size]

/-- A run that is no bracket adds its op. -/
theorem step_of_side_eq_none {run : Run} (hside : run.side = none) :
    step options state run = .ok (state.emit run.op run.count) := by
  obtain ⟨instr, count⟩ := run
  cases instr <;> first | rfl | cases hside

/-- A loop start opens a loop. -/
theorem step_of_opening {run : Run} (hside : run.side = some .opening) :
    step options state run = .ok state.openLoop := by
  rw [step, Instr.eq_loopStart_of_side hside]

/-- A loop end ends a loop. -/
theorem step_of_closing {run : Run} (hside : run.side = some .closing) :
    step options state run = state.closeLoop options := by
  rw [step, Instr.eq_loopEnd_of_side hside]

/-- Emitting an op adds it. -/
theorem appends_emit (state : Compilation) (op : Op) (count : Nat) :
    state.Appends count [op] [state.position] .zero (state.emit op count) :=
  ⟨rfl, by simp [emit, Stream.push], by simp [emit, Stream.push], rfl, rfl⟩

/-- A loop whose body has been compiled is added as its replacement, or as the laid-out body
between two jumps. -/
theorem appends_closeLoop (options : CompileOptions) {width : Nat} {body : Block Op}
    {inner : List Nat} {stats : LoopStats}
    (hbody : state.openLoop.Appends width (body.layout (state.stream.size + 1)) inner stats
      middle) :
    ∃ final, closeLoop options middle = .ok final ∧
      match body.replacement? options with
      | some replacement => state.Appends (width + 2) [replacement] [state.position]
          (stats.record replacement) final
      | none => state.Appends (width + 2) ((Block.loop body .done).layout state.stream.size)
          (state.position :: (inner ++ [state.position + width + 1])) stats.recordPlain final := by
  have hlength : state.stream.positions.toList.length = state.stream.ops.toList.length := by
    simp [state.stream.size_positions]
  have hops : middle.stream.ops.toList = state.stream.ops.toList ++ .jumpIfZero 0 ::
      body.layout (state.stream.ops.toList.length + 1) := by
    simpa [openLoop, Stream.push, Stream.size] using hbody.ops_eq
  have hpositions : middle.stream.positions.toList =
      state.stream.positions.toList ++ state.position :: inner := by
    simpa [openLoop, Stream.push] using hbody.positions_eq
  have hposition : middle.position = state.position + width + 1 := by
    have hstart : state.openLoop.position = state.position + 1 := rfl
    rw [hbody.position_eq, hstart]
    omega
  have hstats : middle.stream.stats = state.stream.stats + stats := hbody.stats_eq
  -- the loop that is closed is the one that was opened, since the body leaves the stack alone
  have hclose : closeLoop options middle = .ok ⟨middle.position + 1,
      middle.stream.closeLoop options ⟨state.stream.ops.toList.length, state.position⟩
        middle.position, state.opened⟩ := by
    have hopened := hbody.opened_eq
    obtain ⟨position, stream, opened⟩ := middle
    subst hopened
    simp [openLoop, closeLoop, Stream.size]
  refine ⟨_, hclose, ?_⟩
  rw [hposition]
  cases h : body.replacement? options with
  | some replacement =>
    obtain ⟨hnew, hfrom, hcount⟩ := Stream.closeLoop_of_some hops hpositions hlength h
    rw [hstats, LoopStats.record_add] at hcount
    exact ⟨rfl, hnew, hfrom, hcount, rfl⟩
  | none =>
    obtain ⟨hnew, hfrom, hcount⟩ := Stream.closeLoop_of_none hops hpositions h
    rw [hstats, LoopStats.recordPlain_add] at hcount
    exact ⟨rfl, by simpa [Stream.size] using hnew, hfrom, hcount, rfl⟩

/-- The runs that spell a block are compiled to the laid-out block. -/
theorem appends_of_spells (options : CompileOptions) {runs : List Run} {block : Block Run}
    (h : Block.Spells Run.side runs block) (hproper : ∀ run ∈ runs, run.Proper)
    (state : Compilation) :
    ∃ final, runs.foldlM (step options) state = .ok final ∧
      state.Appends block.width ((block.plain.reduce options).layout state.stream.size)
        (block.origins options state.position) (block.loopStats options) final := by
  induction h generalizing state with
  | done => exact ⟨state, rfl, .refl state⟩
  | @op run _ _ hside _ ih =>
    obtain ⟨final, hfold, hrest⟩ := ih (fun run hmem => hproper run (List.mem_cons_of_mem _ hmem))
      (state.emit run.op run.count)
    have hemit := appends_emit state run.op run.count
    refine ⟨final, ?_, ?_⟩
    · rw [List.foldlM_cons, step_of_side_eq_none hside]
      exact hfold
    · rw [hemit.size_eq, hemit.position_eq] at hrest
      have hall := hemit.trans hrest
      rw [LoopStats.zero_add] at hall
      exact hall
  | @loop opening closing inner items body rest hopening hclosing _ _ ihbody ihrest =>
    obtain ⟨middle, hinner, hbody⟩ := ihbody (fun run hmem => hproper run (by simp [hmem]))
      state.openLoop
    have hsize : state.openLoop.stream.size = state.stream.size + 1 := by
      simp [openLoop]
    have hposition : state.openLoop.position = state.position + 1 := rfl
    rw [hsize, hposition] at hbody
    -- the body is compiled behind the jump of the open loop, and closing the loop may replace both
    obtain ⟨closed, hclose, hloop⟩ := appends_closeLoop options hbody
    obtain ⟨final, hitems, hrest⟩ := ihrest (fun run hmem => hproper run (by simp [hmem])) closed
    refine ⟨final, ?_, ?_⟩
    · rw [List.foldlM_cons, step_of_opening hopening]
      show (inner ++ closing :: items).foldlM (step options) state.openLoop = _
      rw [List.foldlM_append, hinner]
      show (closing :: items).foldlM (step options) middle = _
      rw [List.foldlM_cons, step_of_closing hclosing, hclose]
      exact hitems
    · rw [Block.plain, Block.origins, Block.width, Block.loopStats]
      have hwidth : body.width + rest.width + 2 = body.width + 2 + rest.width := by omega
      cases hreplacement : (body.plain.reduce options).replacement? options with
      | some replacement =>
        simp only [hreplacement] at hloop
        rw [hloop.size_eq, hloop.position_eq] at hrest
        rw [Block.reduce_loop_of_some hreplacement, hwidth]
        exact hloop.trans hrest
      | none =>
        simp only [hreplacement] at hloop
        rw [hloop.size_eq, hloop.position_eq, Block.length_layout] at hrest
        rw [Block.reduce_loop_of_none hreplacement, hwidth]
        have hall := hloop.trans hrest
        simpa [Block.layout, Block.size, Nat.add_assoc] using hall

/-- Compiling runs counts the open loops. -/
theorem openAfter_of_foldlM {runs : List Run}
    (h : runs.foldlM (step options) state = .ok final) :
    Bracket.openAfter Run.side state.opened.length runs = some final.opened.length := by
  induction runs generalizing state with
  | nil =>
    cases h
    rfl
  | cons run runs ih =>
    rw [List.foldlM_cons] at h
    cases hside : run.side with
    | none =>
      rw [step_of_side_eq_none hside] at h
      simpa [Bracket.openAfter, hside, emit] using ih h
    | some bracket =>
      cases bracket with
      | opening =>
        rw [step_of_opening hside] at h
        simpa [Bracket.openAfter, hside, openLoop] using ih h
      | closing =>
        rw [step_of_closing hside] at h
        obtain ⟨position, stream, opened⟩ := state
        cases opened with
        | nil => cases h
        | cons innermost outer => simpa [Bracket.openAfter, hside] using ih h

end Compilation

namespace Program

variable {options : CompileOptions} {program : Program} {stream : Stream}

/-- A program whose brackets match spells a block of runs. -/
theorem exists_spells_of_balanced (h : program.Balanced) :
    ∃ block, Block.Spells Run.side program.runs block := by
  rw [balanced_iff_openAfter, ← openAfter_runs] at h
  obtain ⟨block, hblock⟩ := Bracket.exists_ofItems?_of_openAfter h
  exact ⟨block, Block.spells_of_ofItems? hblock⟩

/-- Only a program whose brackets match compiles. -/
theorem balanced_of_compile (h : program.compile options = .ok stream) : program.Balanced := by
  rw [compile] at h
  cases hfold : program.runs.foldlM (Compilation.step options) .start with
  | error error =>
    rw [hfold] at h
    cases h
  | ok final =>
    rw [hfold] at h
    have hopen := Compilation.openAfter_of_foldlM hfold
    -- a loop that is open at the end is an error
    have hnone : final.opened.getLast? = none := by
      change final.finish = _ at h
      rw [Compilation.finish] at h
      split at h
      · cases h
      · assumption
    rw [List.getLast?_eq_none_iff] at hnone
    rw [balanced_iff_openAfter, ← openAfter_runs]
    simpa [hnone, Compilation.start] using hopen

/-- A program whose runs spell a block compiles. The stream holds the ops of the block that is laid
out, with their positions, and counts the loops of the block. -/
theorem compile_and_count_of_spells (options : CompileOptions) {block : Block Run}
    (h : Block.Spells Run.side program.runs block) :
    ∃ stream, program.compile options = .ok stream ∧
      stream.ops.toList = (block.plain.reduce options).layout 0 ∧
      stream.positions.toList = block.origins options 0 ∧
      stream.stats = block.loopStats options := by
  obtain ⟨final, hfold, happends⟩ := Compilation.appends_of_spells options h
    program.proper_of_mem_runs .start
  refine ⟨final.stream, ?_, happends.ops_eq, happends.positions_eq, ?_⟩
  · rw [compile, hfold]
    show final.finish = _
    rw [Compilation.finish, happends.opened_eq]
    rfl
  · rw [happends.stats_eq]
    exact LoopStats.zero_add _

/-- A stream holds the ops of a block that is laid out, and the positions of a block of runs. -/
theorem compile_of_spells (options : CompileOptions) {block : Block Run}
    (h : Block.Spells Run.side program.runs block) :
    ∃ stream, program.compile options = .ok stream ∧
      stream.ops.toList = (block.plain.reduce options).layout 0 ∧
      stream.positions.toList = block.origins options 0 := by
  obtain ⟨stream, hcompile, hops, hpositions, -⟩ := compile_and_count_of_spells options h
  exact ⟨stream, hcompile, hops, hpositions⟩

/-- A program that compiles has its runs nested, and compiles to their block. -/
theorem exists_spells_of_compile (h : program.compile options = .ok stream) :
    ∃ block, Block.Spells Run.side program.runs block ∧
      stream.ops.toList = (block.plain.reduce options).layout 0 ∧
      stream.positions.toList = block.origins options 0 := by
  obtain ⟨block, hspells⟩ := exists_spells_of_balanced (balanced_of_compile h)
  obtain ⟨stream', hcompile, hops, hpositions⟩ := compile_of_spells options hspells
  obtain rfl : stream = stream' := Except.ok.inj (h.symm.trans hcompile)
  exact ⟨block, hspells, hops, hpositions⟩

end Program

namespace Block

/-- A sequence of ops holds a block that is laid out from an index on. -/
def LaidOut (ops : Array Op) : Nat → Block Op → Prop
  | _, done => True
  | start, op item rest => ops[start]? = some item ∧ rest.LaidOut ops (start + 1)
  | start, loop body rest =>
    ops[start]? = some (.jumpIfZero (start + body.size + 1)) ∧ body.LaidOut ops (start + 1) ∧
      ops[start + body.size + 1]? = some (.jumpIfNotZero start) ∧
      rest.LaidOut ops (start + body.size + 2)

/-- The item that ends a loop is found behind the one that starts it and what is between them. -/
theorem getElem?_closing {α : Type} (before inner after : List α) (opening closing : α) :
    (before ++ opening :: (inner ++ closing :: after))[before.length + inner.length + 1]? =
      some closing := by
  rw [Nat.add_assoc, List.getElem?_append_right (Nat.le_add_right _ _), Nat.add_sub_cancel_left,
    List.getElem?_cons_succ, List.getElem?_append_right (Nat.le_refl _), Nat.sub_self,
    List.getElem?_cons_zero]

/-- What is laid out at some place in a sequence of ops is found there. -/
theorem laidOut_of_append {ops : Array Op} {block : Block Op} (before after : List Op)
    (hops : ops.toList = before ++ block.layout before.length ++ after) :
    block.LaidOut ops before.length := by
  -- a block is found behind what stands in front of it, which grows on the way down
  induction block generalizing before after with
  | done => trivial
  | op item rest ih =>
    have hrest := ih (before ++ [item]) after
      (by simpa [layout] using hops)
    refine ⟨?_, by simpa using hrest⟩
    simp [← Array.getElem?_toList, hops, layout]
  | loop body rest ihbody ihrest =>
    have hbody := ihbody (before ++ [.jumpIfZero (before.length + body.size + 1)])
      (.jumpIfNotZero before.length :: (rest.layout (before.length + body.size + 2) ++ after))
      (by simpa [layout] using hops)
    have hrest := ihrest (before ++ .jumpIfZero (before.length + body.size + 1) ::
      (body.layout (before.length + 1) ++ [.jumpIfNotZero before.length])) after
      (by simpa [layout, Nat.add_assoc] using hops)
    refine ⟨?_, by simpa using hbody, ?_, by simpa [Nat.add_assoc] using hrest⟩
    · simp [← Array.getElem?_toList, hops, layout]
    · have hclosing := getElem?_closing before (body.layout (before.length + 1))
        (rest.layout (before.length + body.size + 2) ++ after)
        (.jumpIfZero (before.length + body.size + 1)) (.jumpIfNotZero before.length)
      rw [length_layout] at hclosing
      rw [← Array.getElem?_toList, hops, layout, List.append_assoc, List.cons_append,
        List.append_assoc, List.cons_append]
      exact hclosing

/-- The ops of a stream that is one block are laid out from its first index on. -/
theorem laidOut_of_toList_eq {ops : Array Op} {block : Block Op}
    (hops : ops.toList = block.layout 0) : block.LaidOut ops 0 :=
  laidOut_of_append [] [] (by simpa using hops)

section Traced

variable {options : CompileOptions} {positions : Array Nat} {position : Nat} {block : Block Run}

/-- The source positions of the ops from an index on are those of a block of runs at a position. -/
def Traced (options : CompileOptions) (positions : Array Nat) : Nat → Nat → Block Run → Prop
  | _, _, done => True
  | index, position, op run rest =>
    positions[index]? = some position ∧
      rest.Traced options positions (index + 1) (position + run.count)
  | index, position, loop body rest =>
    match (body.plain.reduce options).replacement? options with
    | some _ =>
      positions[index]? = some position ∧
        rest.Traced options positions (index + 1) (position + body.width + 2)
    | none =>
      positions[index]? = some position ∧ body.Traced options positions (index + 1) (position + 1) ∧
        positions[index + (body.plain.reduce options).size + 1]? =
          some (position + body.width + 1) ∧
        rest.Traced options positions (index + (body.plain.reduce options).size + 2)
          (position + body.width + 2)

/-- There are as many source positions as ops. -/
@[simp]
theorem length_origins (position : Nat) (block : Block Run) :
    (block.origins options position).length = (block.plain.reduce options).size := by
  induction block generalizing position with
  | done => rfl
  | op run rest ih => rw [origins, List.length_cons, ih, plain, reduce, size]
  | loop body rest ihbody ihrest =>
    rw [origins, plain]
    cases hreplacement : (body.plain.reduce options).replacement? options with
    | some replacement =>
      rw [reduce_loop_of_some hreplacement, List.length_cons, ihrest, size]
    | none =>
      rw [reduce_loop_of_none hreplacement, List.length_cons, List.length_append, List.length_cons,
        ihbody, ihrest, size]
      omega

/-- Source positions that are listed for a block are traced to it. -/
theorem traced_of_append (before after : List Nat)
    (h : positions.toList = before ++ block.origins options position ++ after) :
    block.Traced options positions before.length position := by
  induction block generalizing position before after with
  | done => trivial
  | op run rest ih =>
    have hrest := ih (before ++ [position]) after
      (by simpa [origins] using h)
    refine ⟨?_, by simpa using hrest⟩
    simp [← Array.getElem?_toList, h, origins]
  | loop body rest ihbody ihrest =>
    rw [Traced]
    rw [origins] at h
    -- a loop that is replaced leaves one position, that of its start
    cases hreplacement : (body.plain.reduce options).replacement? options with
    | some replacement =>
      simp only [hreplacement] at h ⊢
      have hrest := ihrest (before ++ [position]) after (by simpa using h)
      refine ⟨?_, by simpa using hrest⟩
      simp [← Array.getElem?_toList, h]
    | none =>
      simp only [hreplacement] at h ⊢
      have hbody := ihbody (before ++ [position])
        ((position + body.width + 1) ::
          (rest.origins options (position + body.width + 2) ++ after)) (by simpa using h)
      have hrest := ihrest (before ++ position ::
        (body.origins options (position + 1) ++ [position + body.width + 1])) after
        (by simpa using h)
      refine ⟨?_, by simpa using hbody, ?_, by simpa [Nat.add_assoc] using hrest⟩
      · simp [← Array.getElem?_toList, h]
      · have hclosing := getElem?_closing before (body.origins options (position + 1))
          (rest.origins options (position + body.width + 2) ++ after) position
          (position + body.width + 1)
        rw [length_origins] at hclosing
        rw [← Array.getElem?_toList, h, List.append_assoc, List.cons_append, List.append_assoc,
          List.cons_append]
        exact hclosing

end Traced

/-- The op of a run that is no bracket is no jump. -/
theorem all_plain_of_spells {runs : List Run} {block : Block Run}
    (h : Spells Run.side runs block) : block.plain.All fun op => op.side = none := by
  induction h with
  | done => trivial
  | op hitem _ ih => exact ⟨(Run.side_op _).trans hitem, ih⟩
  | loop _ _ _ _ ihbody ihrest => exact ⟨ihbody, ihrest⟩

/-- What replaces a loop is a specialized op. -/
theorem isSpecialized_of_replacement? {options : CompileOptions} {body : Block Op}
    {replacement : Op} (h : body.replacement? options = some replacement) :
    replacement.isSpecialized = true := by
  unfold replacement? at h
  split at h
  · obtain ⟨ops, -, hspecialize⟩ := Option.bind_eq_some_iff.mp h
    exact isSpecialized_of_specialize hspecialize
  · cases h

/-- What replaces a loop is no jump. -/
theorem side_of_replacement? {options : CompileOptions} {body : Block Op} {replacement : Op}
    (h : body.replacement? options = some replacement) : replacement.side = none := by
  have hspecialized := isSpecialized_of_replacement? h
  cases replacement <;> first | rfl | cases hspecialized

/-- Replacing loops brings no jumps into a block. -/
theorem all_reduce {options : CompileOptions} {block : Block Op}
    (h : block.All fun op => op.side = none) :
    (block.reduce options).All fun op => op.side = none := by
  induction block with
  | done => trivial
  | op item rest ih => exact ⟨h.1, ih h.2⟩
  | loop body rest ihbody ihrest =>
    cases hreplacement : (body.reduce options).replacement? options with
    | some replacement =>
      rw [reduce_loop_of_some hreplacement]
      exact ⟨side_of_replacement? hreplacement, ihrest h.2⟩
    | none =>
      rw [reduce_loop_of_none hreplacement]
      exact ⟨ihbody h.1, ihrest h.2⟩

end Block

namespace Bytecode

/-- The step of the op-stream interpreter at an index of a stream. -/
def opStep (ops : Array Op) : Config → Option (Outcome Config) :=
  stepOf (fun config => ops[config.position]?) (step ops.size)

variable {ops : Array Op} {block : Block Op}

/-- An op that is no jump acts on the machine. -/
theorem step_of_side_eq_none {size : Nat} {op : Op} {config : Config} (hside : op.side = none) :
    step size op config = config.act op.act := by
  cases op <;> first | rfl | cases hside

/-- An op jumps to its target if the current cell is as it asks. -/
def Takes (config : Config) (op : Op) (target : Nat) : Prop :=
  op = .jumpIfZero target ∧ config.atZero = true ∨
    op = .jumpIfNotZero target ∧ config.atZero = false

/-- What a step of a stream of `size` ops can come to. -/
inductive StepsTo (size : Nat) (op : Op) (config : Config) : Outcome Config → Prop
  /-- An op that is no jump is carried out. -/
  | acted {machine : Machine} (hside : op.side = none)
      (hact : op.act config.machine = .done machine) :
      StepsTo size op config (.done ⟨config.position + 1, machine⟩)
  /-- An op that is no jump fails. -/
  | failed {error : Error} {machine : Machine} (hside : op.side = none)
      (hact : op.act config.machine = .failed error machine) :
      StepsTo size op config (.failed error ⟨config.position, machine⟩)
  /-- An op that is no jump does not end. -/
  | unfinished (hside : op.side = none) (hact : op.act config.machine = .unfinished) :
      StepsTo size op config .unfinished
  /-- A jump is not taken. -/
  | passed (hside : op.side ≠ none) : StepsTo size op config (.done config.advance)
  /-- A jump is taken. -/
  | taken {target : Nat} (htakes : Takes config op target) (hlt : target < size) :
      StepsTo size op config (.done (config.goTo (target + 1)))
  /-- A jump that is taken leads out of the stream. -/
  | outside {target : Nat} (htakes : Takes config op target) (hle : size ≤ target) :
      StepsTo size op config
        (.failed (.stream (.jumpOutside config.position target size)) config)

/-- A step comes to one of the outcomes that there are. -/
theorem stepsTo_step (size : Nat) (op : Op) (config : Config) :
    StepsTo size op config (step size op config) := by
  -- a jump that is taken ends at its target, or outside the stream if the target is
  have hjump (target : Nat) (htakes : Takes config op target) :
      StepsTo size op config (jump size target config) := by
    rw [jump]
    split
    · next hlt => exact .taken htakes hlt
    · next hle => exact .outside htakes (Nat.le_of_not_lt hle)
  cases hside : op.side with
  | none =>
    rw [step_of_side_eq_none hside]
    obtain ⟨position, machine⟩ := config
    rw [Config.act]
    split
    · next hact => exact .acted hside hact
    · next hact => exact .failed hside hact
    · next hact => exact .unfinished hside hact
  | some bracket =>
    cases op with
    | jumpIfZero target =>
      rw [step]
      split
      · next hzero => exact hjump target (.inl ⟨rfl, hzero⟩)
      · exact .passed (Option.some_ne_none _)
    | jumpIfNotZero target =>
      rw [step]
      split
      · exact .passed (Option.some_ne_none _)
      · next hzero => exact hjump target (.inr ⟨rfl, Bool.eq_false_iff.mpr hzero⟩)
    | _ => cases hside

/-- A step with a given outcome comes to it in one of the ways that there are. -/
theorem stepsTo_of_eq {size : Nat} {op : Op} {config : Config} {outcome : Outcome Config}
    (h : step size op config = outcome) : StepsTo size op config outcome :=
  h ▸ stepsTo_step size op config

/-- The op-stream interpreter acts on an op that is no jump. -/
theorem opStep_of_side_eq_none {index : Nat} {op : Op} (hget : ops[index]? = some op)
    (hside : op.side = none) (machine : Machine) :
    opStep ops ⟨index, machine⟩ = some (Config.act ⟨index, machine⟩ op.act) := by
  rw [opStep, stepOf]
  simp only [hget, Option.map_some, step_of_side_eq_none hside]

/-- The op-stream interpreter follows a block that is laid out. -/
theorem follows_of_laidOut {start : Nat} (h : block.LaidOut ops start)
    (hall : block.All fun op => op.side = none) : block.Follows (opStep ops) Op.act start := by
  induction block generalizing start with
  | done => trivial
  | op item rest ih => exact ⟨opStep_of_side_eq_none h.1 hall.1, ih h.2 hall.2⟩
  | loop body rest ihbody ihrest =>
    obtain ⟨hstart, hbody, hend, hrest⟩ := h
    -- both jumps have their targets in the stream
    have hlt := (Array.getElem?_eq_some_iff.mp hend).1
    have hlt' : start < ops.size := by omega
    refine ⟨fun position machine htest => ?_, ihbody hbody hall.1, ihrest hrest hall.2⟩
    rcases htest with rfl | rfl
    · rw [opStep, stepOf]
      simp only [hstart, Option.map_some, step, Config.atZero, jump, hlt, if_true, Config.goTo,
        Config.advance, decide_eq_true_eq]
      split <;> rfl
    · rw [opStep, stepOf]
      simp only [hend, Option.map_some, step, Config.atZero, jump, hlt', if_true, Config.goTo,
        Config.advance, decide_eq_true_eq]
      split <;> rfl

/-- The op-stream interpreter runs the block that a stream lays out. -/
theorem walks_iff_exec (hops : ops.toList = block.layout 0)
    (hall : block.All fun op => op.side = none) {machine : Machine} {visited : List Config}
    {outcome : Outcome Config} :
    Walks (opStep ops) ⟨0, machine⟩ visited outcome ↔
      Block.Exec Op.act 0 block ⟨0, machine⟩ visited outcome := by
  have hsize : ops.size = block.size := by
    rw [← Array.length_toList, hops, Block.length_layout]
  refine Block.walks_iff_exec (follows_of_laidOut (Block.laidOut_of_toList_eq hops) hall)
    (Block.meets_start _ _ _) fun machine => ?_
  simp [opStep, stepOf, ← hsize]

/-- How the op-stream interpreter ends is how an execution of the block ends. -/
theorem endsWith_iff_exec (hops : ops.toList = block.layout 0)
    (hall : block.All fun op => op.side = none) {machine : Machine} {outcome : Outcome Config} :
    EndsWith (runFrom ops · ⟨0, machine⟩) outcome ↔
      ∃ visited, Block.Exec Op.act 0 block ⟨0, machine⟩ visited outcome := by
  simp only [← walks_iff_exec hops hall]
  exact endsWith_walk_iff

/-- How a run of the op-stream interpreter ends is how an execution of the block ends. -/
theorem endsWith_run_iff_exec (hops : ops.toList = block.layout 0)
    (hall : block.All fun op => op.side = none) {machine : Machine} {outcome : Outcome Machine} :
    EndsWith (run ops · machine) outcome ↔
      ∃ visited final, Block.Exec Op.act 0 block ⟨0, machine⟩ visited final ∧
        final.map (·.machine) = outcome := by
  refine (endsWith_comp_iff fun _ => Outcome.terminates_map).trans ⟨?_, ?_⟩
  · rintro ⟨final, hends, hfinal⟩
    obtain ⟨visited, hexec⟩ := (endsWith_iff_exec hops hall).mp hends
    exact ⟨visited, final, hexec, hfinal⟩
  · rintro ⟨visited, final, hexec, hfinal⟩
    exact ⟨final, (endsWith_iff_exec hops hall).mpr ⟨visited, hexec⟩, hfinal⟩

/-- The op-stream interpreter halts if and only if there is an execution of the block. -/
theorem halts_iff_exec (hops : ops.toList = block.layout 0)
    (hall : block.All fun op => op.side = none) (machine : Machine) :
    Halts (runFrom ops · ⟨0, machine⟩) ↔
      ∃ visited outcome, Block.Exec Op.act 0 block ⟨0, machine⟩ visited outcome := by
  simp only [← walks_iff_exec hops hall]
  exact halts_walk_iff

end Bytecode

end TapeLang

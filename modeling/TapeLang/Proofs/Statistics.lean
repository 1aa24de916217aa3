import TapeLang.CommandLine.Launch
import TapeLang.Proofs.Loops
import TapeLang.Proofs.Relinking

/-!
# Counted loops

A loop is counted when it ends, by what becomes of it. What has been counted may stand in the body
of a loop that ends later and is then taken off the stream with its body. The counts are those of
the finished stream all the same: a body that is replaced has neither specialized ops nor jumps in
it, so that nothing that was counted is ever taken off.

## Main definitions

* `Stream.count`: how many ops of a kind a stream has.
* `LoopStats.ofOps`: the loops that are seen from a sequence of ops.
* `Stream.summary`: the line after a listing.

## Main results

* `Block.loopStats_of_plain_eq`: where ops without loops are left, no loop has been counted.
* `Block.ofOps_layout`: the loops that are counted are those that are seen from the ops.
* `Block.loops_counted`: every loop is counted once.
* `Program.stats_of_compile`: the counts of a compiled stream, and what is printed of them.
-/

namespace TapeLang

/-- The number of ops of a kind. -/
def Op.Kind.occurrences (kind : Op.Kind) (ops : List Op) : Nat :=
  ops.countP fun op => op.kind = kind

namespace Stream

/-- The number of ops of a kind in the stream. -/
def count (stream : Stream) (kind : Op.Kind) : Nat :=
  kind.occurrences stream.ops.toList

/-- The line after a listing: the number of ops, of loops that were replaced and of loops that were
kept. -/
def summary (size replaced kept : Nat) : String :=
  s!"; {size} ops, {replaced} loops specialized, {kept} plain\n"

/-- The summary stands behind the listing. -/
theorem dump_eq (stream : Stream) : stream.dump =
    stream.listing ++ summary stream.size stream.stats.specialized stream.stats.plainLoops := by
  simp [dump, summary, String.append_assoc]

end Stream

namespace LoopStats

/-- The loops that are seen from a sequence of ops: each specialized op and each loop start is one
of them. -/
def ofOps (ops : List Op) : LoopStats where
  setZero := Op.Kind.setZero.occurrences ops
  scanUntilZero := Op.Kind.scanUntilZero.occurrences ops
  transferAndZero := Op.Kind.transferAndZero.occurrences ops
  plainLoops := Op.Kind.jumpIfZero.occurrences ops

/-- The loops of two sequences are those of the one and those of the other. -/
theorem ofOps_append (ops more : List Op) : ofOps (ops ++ more) = ofOps ops + ofOps more := by
  simp [ofOps, Op.Kind.occurrences, add_def]

/-- The loops of a sequence are those of its first op and those of the others. -/
theorem ofOps_cons (op : Op) (ops : List Op) : ofOps (op :: ops) = ofOps [op] + ofOps ops :=
  ofOps_append [op] ops

/-- A specialized op is the loop that it replaces. -/
theorem record_eq {op : Op} (h : op.isSpecialized = true) : zero.record op = ofOps [op] := by
  cases op <;> first | rfl | cases h

/-- No loop is seen from other ops than specialized ones and jumps. -/
theorem ofOps_eq_zero {op : Op} (hside : op.side = none) (h : op.isSpecialized = false) :
    ofOps [op] = zero := by
  cases op <;> simp [Op.side, Op.isSpecialized] at hside h <;> rfl

/-- A loop that is kept is seen from its two jumps. -/
theorem recordPlain_eq (stats : LoopStats) (target start : Nat) :
    stats.recordPlain = ofOps [.jumpIfZero target] + (stats + ofOps [.jumpIfNotZero start]) := by
  simp [recordPlain, ofOps, Op.Kind.occurrences, Op.kind, add_def, Nat.add_comm]

/-- The number of loops, however they are counted. -/
def loops (stats : LoopStats) : Nat :=
  stats.specialized + stats.plainLoops

/-- The loops that are counted together are counted one after another. -/
theorem loops_add (stats more : LoopStats) : (stats + more).loops = stats.loops + more.loops := by
  simp only [loops, specialized, add_def]
  omega

/-- A loop that is replaced is one loop. -/
theorem loops_record (stats : LoopStats) {op : Op} (h : op.isSpecialized = true) :
    (stats.record op).loops = stats.loops + 1 := by
  have hplain : (stats.record op).plainLoops = stats.plainLoops := by cases op <;> rfl
  rw [loops, loops, specialized_record, hplain, if_pos h]
  omega

/-- A loop that is kept is one loop. -/
theorem loops_recordPlain (stats : LoopStats) : stats.recordPlain.loops = stats.loops + 1 := rfl

end LoopStats

namespace Block

variable {options : CompileOptions}

/-- Where a block of runs compiles to ops without loops, no loop has been counted. -/
theorem loopStats_of_plain_eq {block : Block Run} {items : List Op}
    (h : block.plain = items.foldr .op .done) : block.loopStats options = .zero := by
  induction block generalizing items with
  | done => rfl
  | op run rest ih =>
    cases items with
    | nil => cases h
    | cons item items =>
      rw [plain, List.foldr_cons, op.injEq] at h
      exact ih h.2
  | loop body rest => cases items <;> cases h

/-- The loops that are counted of a block are those that are seen from its ops. -/
theorem ofOps_layout {block : Block Run} (h : block.plain.All fun op => op.side = none)
    (start : Nat) :
    LoopStats.ofOps ((block.plain.reduce options).layout start) = block.loopStats options := by
  induction block generalizing start with
  | done => rfl
  | op run rest ih =>
    have hplain := (op run rest).all_plain_not_specialized.1
    rw [plain, reduce, layout, LoopStats.ofOps_cons, LoopStats.ofOps_eq_zero h.1 hplain, ih h.2,
      LoopStats.zero_add, loopStats]
  | loop body rest ihbody ihrest =>
    rw [plain, loopStats]
    cases hreplacement : (body.plain.reduce options).replacement? options with
    | some replacement =>
      -- the body of a loop that is replaced has no loops, so that none of them is lost with it
      obtain ⟨items, hitems, -⟩ := exists_items_of_replacement? hreplacement
      rw [reduce_loop_of_some hreplacement, layout, LoopStats.ofOps_cons, ihrest h.2]
      show _ = (body.loopStats options).record replacement + _
      rw [loopStats_of_plain_eq hitems,
        LoopStats.record_eq (isSpecialized_of_replacement? hreplacement)]
    | none =>
      rw [reduce_loop_of_none hreplacement, layout, LoopStats.ofOps_cons, LoopStats.ofOps_append,
        LoopStats.ofOps_cons (.jumpIfNotZero start), ihbody h.1, ihrest h.2]
      show _ = (body.loopStats options).recordPlain + _
      rw [LoopStats.recordPlain_eq, LoopStats.add_assoc, LoopStats.add_assoc]

/-- Every loop is counted once, as replaced or as kept. -/
theorem loops_counted {runs : List Run} {block : Block Run} (h : Spells Run.side runs block) :
    (block.loopStats options).loops = Bracket.number Run.side .opening runs := by
  induction h with
  | done => rfl
  | op hitem _ ih => simp [loopStats, ih, Bracket.number, hitem]
  | @loop opening closing inner items body rest hopening hclosing _ _ ihbody ihrest =>
    -- the loop itself, those in it and those behind it
    have hnumber : Bracket.number Run.side .opening (opening :: (inner ++ closing :: items)) =
        Bracket.number Run.side .opening inner + Bracket.number Run.side .opening items + 1 := by
      simp [Bracket.number, hopening, hclosing]
    rw [hnumber, ← ihbody, ← ihrest, loopStats]
    cases hreplacement : (body.plain.reduce options).replacement? options with
    | some replacement =>
      show ((body.loopStats options).record replacement + rest.loopStats options).loops = _
      rw [LoopStats.loops_add,
        LoopStats.loops_record _ (isSpecialized_of_replacement? hreplacement)]
      omega
    | none =>
      show ((body.loopStats options).recordPlain + rest.loopStats options).loops = _
      rw [LoopStats.loops_add, LoopStats.loops_recordPlain]
      omega

end Block

/-- Brackets can be counted on the runs of a program. -/
theorem Bracket.number_flatMap_expand (bracket : Bracket) {runs : List Run}
    (hproper : ∀ run ∈ runs, run.Proper) :
    number Instr.side bracket (runs.flatMap Run.expand) = number Run.side bracket runs := by
  induction runs with
  | nil => rfl
  | cons run runs ih =>
    have hrest := ih fun run hmem => hproper run (List.mem_cons_of_mem _ hmem)
    -- a run of brackets is a single bracket
    have hrun : number Instr.side bracket run.expand = number Run.side bracket [run] := by
      by_cases hside : run.side = some bracket
      · have hcount := (hproper run List.mem_cons_self).bracket (by simp [hside])
        rw [Run.expand, hcount, List.replicate_one]
        rfl
      · have hinstr : run.instr.side ≠ some bracket := hside
        simp [number, Run.expand, List.countP_replicate, hside, hinstr]
    rw [List.flatMap_cons, ← List.singleton_append]
    simp only [number, List.countP_append] at hrun hrest ⊢
    rw [hrun, hrest]

/-- The jumps on the opening side are the loop starts. -/
theorem Op.Kind.occurrences_jumpIfZero (ops : List Op) :
    jumpIfZero.occurrences ops = Bracket.number Op.side .opening ops :=
  List.countP_congr fun op _ => by cases op <;> simp [Op.kind, Op.side]

/-- The jumps on the closing side are the loop ends. -/
theorem Op.Kind.occurrences_jumpIfNotZero (ops : List Op) :
    jumpIfNotZero.occurrences ops = Bracket.number Op.side .closing ops :=
  List.countP_congr fun op _ => by cases op <;> simp [Op.kind, Op.side]

/-- A block that is laid out has as many loop ends as loop starts. -/
theorem Block.occurrences_layout {block : Block Op} (h : block.All fun op => op.side = none)
    (start : Nat) : Op.Kind.jumpIfNotZero.occurrences (block.layout start) =
      Op.Kind.jumpIfZero.occurrences (block.layout start) := by
  have hmatched := Bracket.matched_iff_openAfter.mpr ((spells_layout h start).openAfter_eq 0)
  rw [Op.Kind.occurrences_jumpIfNotZero, Op.Kind.occurrences_jumpIfZero]
  exact hmatched.total

/-- The listing of a program that compiles is written as a whole, its summary last. -/
theorem Launch.writeListing_of_compile {settings : Settings} {program : Program} {stream : Stream}
    (h : program.compile settings.compileOptions = .ok stream) :
    writeListing settings program .unlimited =
      (.ok (), { bytes := stream.dump.toUTF8.toList.toArray }) := by
  have hunlimited : Output.unlimited.limit = none := rfl
  have hwritten := Output.writeAll_of_unlimited stream.dump.toUTF8.toList hunlimited
  simp only [writeListing, h, hwritten]
  simp [Output.unlimited]

namespace Program

variable {options : CompileOptions} {program : Program} {stream : Stream}

/-- The counts of a compiled stream are the numbers of its specialized ops, kind by kind, and of
its jumps, of which there are as many on either side. Together they are the loops of the program.
With these numbers the listing of the stream ends, under all settings that compile the program in
this way. -/
theorem stats_of_compile (h : program.compile options = .ok stream) :
    stream.stats.setZero = stream.count .setZero ∧
    stream.stats.scanUntilZero = stream.count .scanUntilZero ∧
    stream.stats.transferAndZero = stream.count .transferAndZero ∧
    stream.stats.plainLoops = stream.count .jumpIfZero ∧
    stream.stats.plainLoops = stream.count .jumpIfNotZero ∧
    stream.stats.specialized + stream.stats.plainLoops = program.instrs.toList.count .loopStart ∧
    ∀ settings : Settings, settings.compileOptions = options →
      ∃ output, Launch.writeListing settings program .unlimited = (.ok (), output) ∧
        output.bytes.toList = (stream.listing ++ Stream.summary stream.size
          (stream.count .setZero + stream.count .scanUntilZero + stream.count .transferAndZero)
          (stream.count .jumpIfZero)).toUTF8.toList := by
  obtain ⟨block, hspells⟩ := exists_spells_of_balanced (balanced_of_compile h)
  obtain ⟨stream', hcompile, hops, -, hstats⟩ := compile_and_count_of_spells options hspells
  obtain rfl : stream = stream' := Except.ok.inj (h.symm.trans hcompile)
  have hplain := Block.all_plain_of_spells hspells
  have hcounts : stream.stats = .ofOps stream.ops.toList := by
    rw [hstats, hops, Block.ofOps_layout hplain]
  have hends : stream.count .jumpIfNotZero = stream.count .jumpIfZero := by
    rw [Stream.count, Stream.count, hops]
    exact Block.occurrences_layout (Block.all_reduce hplain) 0
  have hloops : stream.stats.loops = program.instrs.toList.count .loopStart := by
    rw [hstats, Block.loops_counted hspells, Instr.count_loopStart, ← expand_runs,
      Bracket.number_flatMap_expand .opening program.proper_of_mem_runs]
  refine ⟨congrArg LoopStats.setZero hcounts, congrArg LoopStats.scanUntilZero hcounts,
    congrArg LoopStats.transferAndZero hcounts, congrArg LoopStats.plainLoops hcounts, ?_, hloops,
    fun settings hsettings => ?_⟩
  · rw [hends]
    exact congrArg LoopStats.plainLoops hcounts
  · subst hsettings
    refine ⟨_, Launch.writeListing_of_compile h, ?_⟩
    rw [Stream.dump_eq, hcounts]
    rfl

/-- Two loops are replaced inside of a third one, which is kept. -/
theorem stats_of_compile_twoInside :
    ∃ stream output,
      compile {} ⟨#[.loopStart, .loopStart, .decrement, .loopEnd, .right, .loopStart, .right,
        .loopEnd, .loopEnd]⟩ = .ok stream ∧
      stream.stats = ⟨1, 1, 0, 1⟩ ∧ stream.count .setZero = 1 ∧ stream.count .scanUntilZero = 1 ∧
      stream.count .jumpIfZero = 1 ∧ stream.count .jumpIfNotZero = 1 ∧
      Launch.writeListing {} ⟨#[.loopStart, .loopStart, .decrement, .loopEnd, .right, .loopStart,
        .right, .loopEnd, .loopEnd]⟩ .unlimited = (.ok (), output) ∧
      output.bytes.toList =
        (stream.listing ++ "; 5 ops, 2 loops specialized, 1 plain\n").toUTF8.toList := by
  have hcompile : compile {} ⟨#[.loopStart, .loopStart, .decrement, .loopEnd, .right, .loopStart,
      .right, .loopEnd, .loopEnd]⟩ = .ok ⟨#[.jumpIfZero 4, .setZero, .forward 1, .scanUntilZero 1,
        .jumpIfNotZero 0], #[0, 1, 4, 5, 8], ⟨1, 1, 0, 1⟩, rfl⟩ := rfl
  obtain ⟨hclear, hscan, -, hstarts, hends, -, hwrite⟩ := stats_of_compile hcompile
  obtain ⟨output, hwritten, hbytes⟩ := hwrite {} rfl
  exact ⟨_, output, hcompile, rfl, hclear.symm, hscan.symm, hstarts.symm, hends.symm, hwritten,
    hbytes⟩

end Program

end TapeLang

import TapeLang.Proofs.Fusion
import TapeLang.Proofs.Traces

/-!
# Executed ops

How many ops a run executes is read off its profile. Fusing runs and replacing loops does not only
make streams shorter: whatever a run goes through, the stream with specialization executes at most
as many ops as the stream without it, and that at most as many as the scanning interpreter executes
instructions.

* `Profile.CountsRun`: what it means that a profile counts the ops on the way of a run.
* `Stream.records_kindsOf`, `Stream.countsRun`: the profile of a run does.
* `Program.exists_thrifty_walk`: with specialization a run is thriftier than without it.
* `Program.exists_shorter_walk`: a run of fused ops is not longer than one of single instructions.
* `Program.specialized_executes_no_more`: how the counts of the three runs compare.
-/

namespace TapeLang

/-- A computation ends if and only if it leaves a state behind. -/
theorem Outcome.terminates_iff_state? {σ : Type} {outcome : Outcome σ} :
    outcome.Terminates ↔ ∃ state, outcome.state? = some state := by
  cases outcome <;> simp [Terminates, state?]

/-- A profiled run leaves a profile behind if and only if the run ends. -/
theorem Bytecode.exists_profile_iff {ops : Array Op} {fuel : Nat} {machine : Machine} :
    (∃ stopped profile, (runProfiled ops fuel machine .empty).state? = some (stopped, profile)) ↔
      (runFrom ops fuel ⟨0, machine⟩).Terminates := by
  have hprofiled : (runProfiled ops fuel machine .empty).Terminates ↔
      (runFrom ops fuel ⟨0, machine⟩).Terminates := by
    rw [← map_runObserved Profile.record ops fuel ⟨0, machine⟩ .empty, Outcome.terminates_map,
      runProfiled, Outcome.terminates_map]
  rw [← hprofiled, Outcome.terminates_iff_state?, Prod.exists]

/-- A profile has counted the kinds of the ops on the way of the run. -/
theorem Stream.records_kindsOf {stream : Stream} (hvalid : stream.validate = .ok ()) {fuel : Nat}
    {machine stopped : Machine} {profile : Profile}
    (h : (Bytecode.runProfiled stream.ops fuel machine .empty).state? = some (stopped, profile)) :
    profile.Records (Bytecode.kindsOf stream.ops (Bytecode.trailFrom stream.ops fuel ⟨0, machine⟩))
      (Bytecode.bodiesOf stream.ops (Bytecode.trailFrom stream.ops fuel ⟨0, machine⟩)) := by
  have hown : Job.profileFrom .empty ⟨stream, fuel, machine⟩ = some profile := by
    rw [Job.profileFrom, h, Option.map_some]
  exact Job.records_of_profileFrom hvalid Profile.records_empty hown

/-- The profile counts the ops that the run of a machine, from the first op on, executes with this
much fuel. -/
structure Profile.CountsRun (profile : Profile) (ops : Array Op) (fuel : Nat)
    (machine : Machine) : Prop where
  /-- Each kind is counted as often as the run executes an op of it. -/
  count_eq : ∀ kind, profile.count kind =
    (Bytecode.kindsOf ops (Bytecode.trailFrom ops fuel ⟨0, machine⟩)).count kind
  /-- The total is the number of ops that the run executes. -/
  total_eq : profile.total =
    (Bytecode.kindsOf ops (Bytecode.trailFrom ops fuel ⟨0, machine⟩)).length

/-- The profile of a run counts the ops of the run. -/
theorem Stream.countsRun {stream : Stream} (hvalid : stream.validate = .ok ()) {fuel : Nat}
    {machine stopped : Machine} {profile : Profile}
    (h : (Bytecode.runProfiled stream.ops fuel machine .empty).state? = some (stopped, profile)) :
    profile.CountsRun stream.ops fuel machine :=
  ⟨(records_kindsOf hvalid h).count_eq, (records_kindsOf hvalid h).total_eq⟩

namespace Program

variable {program : Program}

/-- A compiled stream passes its check. -/
theorem validate_of_compile {options : CompileOptions} {stream : Stream}
    (h : program.compile options = .ok stream) : stream.validate = .ok () := by
  obtain ⟨block, hspells, hops, -⟩ := exists_spells_of_compile h
  rw [Stream.validate,
    Stream.check_of_layout hops (Block.all_reduce (Block.all_plain_of_spells hspells))]
  rfl

/-- A program that compiles also compiles with other options. -/
theorem exists_compile {options : CompileOptions} {stream : Stream}
    (h : program.compile options = .ok stream) (options' : CompileOptions) :
    ∃ stream', program.compile options' = .ok stream' := by
  obtain ⟨block, hspells, -⟩ := exists_spells_of_compile h
  obtain ⟨stream', hstream', -⟩ := compile_of_spells options' hspells
  exact ⟨stream', hstream'⟩

variable {strict : Bool} {plain special : Stream} {machine : Machine} {visited : List Config}
  {outcome : Outcome Config}

/-- A run without specialization has a thriftier run with specialization at its side. -/
theorem exists_thrifty_walk (hsize : program.size < 2 ^ 63)
    (hplain : program.compile ⟨false, strict⟩ = .ok plain)
    (hspecial : program.compile ⟨true, strict⟩ = .ok special)
    (h : Walks (Bytecode.opStep plain.ops) ⟨0, machine⟩ visited outcome) :
    ∃ visited' outcome', Walks (Bytecode.opStep special.ops) ⟨0, machine⟩ visited' outcome' ∧
      Thrifty (Bytecode.kindsOf plain.ops visited) (Bytecode.kindsOf special.ops visited') := by
  obtain ⟨block, hspells, hops, hpositions⟩ := exists_spells_of_compile hspecial
  obtain ⟨plain', hplain', hplainOps, -⟩ := compile_of_spells ⟨false, strict⟩ hspells
  obtain rfl : plain = plain' := Except.ok.inj (hplain.symm.trans hplain')
  rw [Block.reduce_of_not_specializeLoops rfl] at hplainOps
  have hreads := reads_zero_of_spells hspells
  have hside := Block.all_plain_of_spells hspells
  have hlaid := Block.laidOut_of_toList_eq hops
  have hscreens := screens_of_reads hreads hlaid
    (Block.traced_of_append [] [] (by simpa using hpositions))
  -- the run is an execution of the block, which is matched when the block is reduced
  have hexec := (Bytecode.walks_iff_exec hplainOps hside).mp h
  obtain ⟨visited', outcome', hexec', -, -, hthrifty⟩ :=
    Block.tracked_reduce plain.ops hexec (Block.all_elementary_of_reads hsize hreads) 0 0 hscreens
      hlaid (Block.meets_start _ _ _)
  exact ⟨visited', outcome', (Bytecode.walks_iff_exec hops (Block.all_reduce hside)).mpr hexec',
    hthrifty (Block.laidOut_of_toList_eq hplainOps) (Block.sameSide_start ..)⟩

/-- A run of the scanning interpreter has a run without specialization at its side that is not
longer. -/
theorem exists_shorter_walk (hsize : program.size < 2 ^ 63)
    (hplain : program.compile ⟨false, strict⟩ = .ok plain)
    (h : Walks program.scanningStep ⟨0, machine⟩ visited outcome) :
    ∃ visited' outcome', Walks (Bytecode.opStep plain.ops) ⟨0, machine⟩ visited' outcome' ∧
      visited'.length ≤ visited.length := by
  obtain ⟨block, hspells, hops, -⟩ := exists_spells_of_compile hplain
  rw [Block.reduce_of_not_specializeLoops rfl] at hops
  have hends := all_ends_of_reads hsize (reads_zero_of_spells hspells)
  -- the interpreter takes the instructions of a run one by one, and the stream takes them at once
  have hexec := (walks_iff_exec_instrs hspells).mp h
  rw [← Block.unfold_expand] at hexec
  obtain ⟨visited', outcome', hexec', -, hpace⟩ :=
    Block.paced_unfold (hends.imp fun run h => ⟨h.1, h.2.1, fun machine =>
      (h.2.2 machine).sameEnd⟩) 0 0 _ _ _ hexec 0 (Block.meets_start _ _ _)
  rw [Block.unfold_op] at hexec'
  exact ⟨visited', outcome',
    (Bytecode.walks_iff_exec hops (Block.all_plain_of_spells hspells)).mpr hexec',
    hpace fun _ => Nat.le_refl _⟩

/-- Specialization never executes more ops. If a run without specialization ends, so does the run
with specialization. It reads and writes with as many ops, it is at no more loop starts and at no
more loop ends, and it executes no more ops in all. A run without specialization in turn executes
no more ops than the scanning interpreter executes instructions. Both profiles count what their runs
execute. The program has to fit in memory, so that a word can count its runs. -/
theorem specialized_executes_no_more (hsize : program.size < 2 ^ 63) {strict : Bool}
    {plain : Stream} (hplain : program.compile ⟨false, strict⟩ = .ok plain) {fuel : Nat}
    {machine stopped : Machine} {profile : Profile}
    (hends : (Bytecode.runProfiled plain.ops fuel machine .empty).state? =
      some (stopped, profile)) :
    (∃ special, program.compile ⟨true, strict⟩ = .ok special ∧ ∃ fuel' stopped' profile',
      (Bytecode.runProfiled special.ops fuel' machine .empty).state? = some (stopped', profile') ∧
      profile'.total ≤ profile.total ∧
      profile'.count .write = profile.count .write ∧
      profile'.count .read = profile.count .read ∧
      profile'.count .jumpIfZero ≤ profile.count .jumpIfZero ∧
      profile'.count .jumpIfNotZero ≤ profile.count .jumpIfNotZero ∧
      profile'.CountsRun special.ops fuel' machine) ∧
    (∀ fuel', (Scanning.runFrom program fuel' ⟨0, machine⟩).Terminates →
      profile.total ≤ (Scanning.trailFrom program fuel' ⟨0, machine⟩).length) ∧
    profile.CountsRun plain.ops fuel machine := by
  have hcounts := Stream.countsRun (validate_of_compile hplain) hends
  have hwalks : Walks (Bytecode.opStep plain.ops) ⟨0, machine⟩
      (Bytecode.trailFrom plain.ops fuel ⟨0, machine⟩)
      (Bytecode.runFrom plain.ops fuel ⟨0, machine⟩) :=
    walks_trail_of_walk (Bytecode.exists_profile_iff.mp ⟨stopped, profile, hends⟩)
  refine ⟨?_, fun fuel' hend => ?_, hcounts⟩
  · obtain ⟨special, hspecial⟩ := exists_compile hplain ⟨true, strict⟩
    obtain ⟨visited', outcome', hwalks', hless⟩ :=
      exists_thrifty_walk hsize hplain hspecial hwalks
    -- with enough fuel the run is profiled to its end
    obtain ⟨hwalk', htrail'⟩ := hwalks'.walk_eq
    obtain ⟨stopped', profile', hends'⟩ :=
      Bytecode.exists_profile_iff.mpr (hwalk' ▸ hwalks'.terminates)
    have hcounts' := Stream.countsRun (validate_of_compile hspecial) hends'
    have htotal' := hcounts'.total_eq
    have hcount' := hcounts'.count_eq
    rw [Bytecode.trailFrom, htrail'] at htotal' hcount'
    refine ⟨special, hspecial, _, stopped', profile', hends', ?_⟩
    simp only [hcounts.total_eq, htotal', hcounts.count_eq, hcount']
    exact ⟨hless.length_le, hless.write_eq, hless.read_eq, hless.jumpIfZero_le,
      hless.jumpIfNotZero_le, hcounts'⟩
  · obtain ⟨visited', outcome', hwalks', hle⟩ :=
      exists_shorter_walk hsize hplain (walks_trail_of_walk hend)
    -- the run at the side of the scanning one is the profiled run
    obtain ⟨rfl, -⟩ := hwalks.unique hwalks'
    calc profile.total
        = (Bytecode.kindsOf plain.ops (Bytecode.trailFrom plain.ops fuel ⟨0, machine⟩)).length :=
          hcounts.total_eq
      _ ≤ (Bytecode.trailFrom plain.ops fuel ⟨0, machine⟩).length :=
          Bytecode.length_kindsOf_le ..
      _ ≤ (Scanning.trailFrom program fuel' ⟨0, machine⟩).length := hle

/-- The program that adds one to the first cell and moves it to the left. Without specialization the
round of the loop is cut off in its middle, after four ops; the op that stands for the loop fails at
once. -/
theorem specialized_executes_no_more_moveLeft :
    ∃ stopped profile,
      (Bytecode.runProfiled #[.add 1, .jumpIfZero 6, .sub 1, .backward 1, .add 1, .forward 1,
        .jumpIfNotZero 1] 4 ⟨.blank, .ofBytes [], .unlimited⟩ .empty).state? =
        some (stopped, profile) ∧
      profile.total = 4 ∧
      (∃ special, Program.compile ⟨true, false⟩
          ⟨#[.increment, .loopStart, .decrement, .left, .increment, .right, .loopEnd]⟩ =
          .ok special ∧ ∃ fuel' stopped' profile',
        (Bytecode.runProfiled special.ops fuel' ⟨.blank, .ofBytes [], .unlimited⟩
          .empty).state? = some (stopped', profile') ∧
        profile'.total ≤ profile.total ∧
        profile'.count .jumpIfZero ≤ profile.count .jumpIfZero) ∧
      profile.total ≤ (Scanning.trailFrom
        ⟨#[.increment, .loopStart, .decrement, .left, .increment, .right, .loopEnd]⟩ 4
        ⟨0, .blank, .ofBytes [], .unlimited⟩).length := by
  have hplain : Program.compile ⟨false, false⟩
      ⟨#[.increment, .loopStart, .decrement, .left, .increment, .right, .loopEnd]⟩ =
      .ok ⟨#[.add 1, .jumpIfZero 6, .sub 1, .backward 1, .add 1, .forward 1, .jumpIfNotZero 1],
        #[0, 1, 2, 3, 4, 5, 6], ⟨0, 0, 0, 1⟩, rfl⟩ := rfl
  have hrun : Bytecode.runFrom #[.add 1, .jumpIfZero 6, .sub 1, .backward 1, .add 1, .forward 1,
      .jumpIfNotZero 1] 4 ⟨0, .blank, .ofBytes [], .unlimited⟩ =
      .failed (.outOfRange (-1)) ⟨3, .blank, .ofBytes [], .unlimited⟩ := rfl
  have hscan : Scanning.runFrom
      ⟨#[.increment, .loopStart, .decrement, .left, .increment, .right, .loopEnd]⟩ 4
      ⟨0, .blank, .ofBytes [], .unlimited⟩ =
      .failed (.outOfRange (-1)) ⟨3, .blank, .ofBytes [], .unlimited⟩ := rfl
  obtain ⟨stopped, profile, hends⟩ := Bytecode.exists_profile_iff.mpr
    (show (Bytecode.runFrom _ 4 ⟨0, _⟩).Terminates by rw [hrun]; simp [Outcome.Terminates])
  obtain ⟨⟨special, hspecial, fuel', stopped', profile', hends', htotal, -, -, hstarts, -, -⟩,
    hnaive, hcounts⟩ := specialized_executes_no_more (by decide) hplain hends
  exact ⟨stopped, profile, hends, hcounts.total_eq,
    ⟨special, hspecial, fuel', stopped', profile', hends', htotal, hstarts⟩,
    hnaive 4 (by rw [hscan]; simp [Outcome.Terminates])⟩

end Program

end TapeLang

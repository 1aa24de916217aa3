import TapeLang.Proofs.Extent
import TapeLang.Proofs.Native.Generation
import TapeLang.Proofs.Native.Lowered

/-!
# What the code generators accept

The two ways to native code refuse ops for different reasons, at different places and in their own
order, but they refuse almost the same ops. Both need proper nesting, and displacements that are
signed 32-bit numbers; as templates take the amount of a displacement and its sign apart, the least
of these numbers is refused there. Code that is too long for its branches is the only other obstacle
for templates; a compiled program stays clear of it if it is short, since each of its instructions
takes 21 bytes at most.

## Main results

* `exists_loweredFunction_iff`: the ops that can be lowered.
* `exists_templateCode_iff`: the ops for which there is code from templates.
* `Block.codeSize_reduce_le`: how much code a part of a program becomes.
* `generators_accept`: which ops the generators accept, and that they accept compiled programs.
-/

namespace TapeLang

variable {descriptors : Descriptors} {ops : Array Op}

/-- Templates take the displacements that are signed 32-bit numbers, but for the least of them. -/
theorem Op.inReach_iff {op : Op} : op.InReach ↔
    op.Displaced ∧ op ≠ .scanUntilZero (-2 ^ 31) ∧ op ≠ .transferAndZero (-2 ^ 31) := by
  cases op with
  | scanUntilZero delta | transferAndZero delta =>
    simp only [InReach, Displaced, ne_eq, scanUntilZero.injEq, transferAndZero.injEq, reduceCtorEq,
      not_false_eq_true, and_true, true_and]
    omega
  | _ => simp [InReach, Displaced]

/-- Jumps have no displacements. -/
theorem Op.inReach_of_side_ne_none {op : Op} (h : op.side ≠ none) : op.InReach := by
  cases op with
  | jumpIfZero target => trivial
  | jumpIfNotZero target => trivial
  | _ => exact absurd rfl h

/-- Ops have a nesting if and only if their jumps match. -/
theorem Block.exists_ofOps_iff : (∃ block, Block.ofOps ops = some block) ↔
    Bracket.Matched Op.side ops.toList := by
  rw [Bracket.matched_iff_openAfter]
  constructor
  · rintro ⟨block, hblock⟩
    exact (spells_of_ofItems? hblock).openAfter_eq 0
  · exact Bracket.exists_ofItems?_of_openAfter

/-- Ops can be lowered if and only if their jumps match and their displacements are signed 32-bit
numbers. -/
theorem exists_loweredFunction_iff : (∃ function, loweredFunction descriptors ops = .ok function) ↔
    Bracket.Matched Op.side ops.toList ∧ ∀ op ∈ ops.toList, op.Displaced := by
  rw [← Block.exists_ofOps_iff]
  constructor
  · rintro ⟨function, hfunction⟩
    obtain ⟨block, hblock, hall, -⟩ := lines_of_loweredFunction hfunction
    refine ⟨⟨block, hblock⟩, ?_⟩
    -- the ops that are no items of the block are jumps
    apply (Block.spells_of_ofItems? hblock).forall_mem (hall.imp fun _ hitem => hitem.2)
    intro op hside
    exact (Op.inReach_iff.mp (Op.inReach_of_side_ne_none hside)).1
  · rintro ⟨⟨block, hblock⟩, hdisplaced⟩
    have hspells := Block.spells_of_ofItems? hblock
    have hops := @Lower.run_of_spells descriptors
      ⟨#[.block Lower.entry [Lower.tape], .define ⟨2⟩ (.const .i64 0), .setIndex ⟨2⟩], 3, 2, []⟩ _ _
      hspells (hspells.all.imp fun op hop => hdisplaced op hop.1)
    -- after the ops no loop is open, so that the function can be ended
    have hstream : (Lower.stream descriptors ops).run Lower.start = .ok ((), _) :=
      run_bind_eq_ok.mpr ⟨_, _, rfl, run_bind_eq_ok.mpr ⟨_, _, rfl, run_bind_eq_ok.mpr
        ⟨_, _, hops, rfl⟩⟩⟩
    exact ⟨⟨_⟩, by rw [loweredFunction, hstream]⟩

/-- For ops whose code is short there is code from templates if and only if their jumps match and
their displacements are in reach. -/
theorem exists_templateCode_iff (hsize : 23 + codeSize ops.toList < 2 ^ 31) :
    (∃ bytes, templateCode descriptors ops = .ok bytes) ↔
      Bracket.Matched Op.side ops.toList ∧ ∀ op ∈ ops.toList, op.InReach := by
  rw [← Block.exists_ofOps_iff]
  constructor
  · rintro ⟨bytes, hbytes⟩
    obtain ⟨block, -, hblock, hreach, -⟩ := listing_of_templateCode hbytes
    exact ⟨⟨block, hblock⟩, (Block.spells_of_ofItems? hblock).forall_mem hreach
      fun op hside => Op.inReach_of_side_ne_none hside⟩
  · rintro ⟨⟨block, hblock⟩, hreach⟩
    obtain ⟨bytes, hbytes, -⟩ := exists_templateCode hblock hreach hsize
    exact ⟨bytes, hbytes⟩

/-- Code is delivered whenever it can be generated. -/
theorem exists_generate_template_iff :
    (∃ code, TemplateCode.generate descriptors ops = .ok code) ↔
      ∃ bytes, templateCode descriptors ops = .ok bytes := by
  constructor
  · rintro ⟨code, hcode⟩
    exact ⟨code.bytes, (TemplateCode.generate_eq_ok.mp hcode).1⟩
  · rintro ⟨bytes, hbytes⟩
    obtain ⟨block, -, hblock, -⟩ := listing_of_templateCode hbytes
    exact ⟨⟨bytes, block, descriptors⟩, TemplateCode.generate_eq_ok.mpr ⟨hbytes, hblock, rfl⟩⟩

/-- A function is delivered whenever ops can be lowered. -/
theorem exists_generate_lowered_iff :
    (∃ code, LoweredCode.generate descriptors ops = .ok code) ↔
      ∃ function, loweredFunction descriptors ops = .ok function := by
  constructor
  · rintro ⟨code, hcode⟩
    exact ⟨code.function, (LoweredCode.generate_eq_ok.mp hcode).1⟩
  · rintro ⟨function, hfunction⟩
    obtain ⟨block, hblock, -⟩ := lines_of_loweredFunction hfunction
    exact ⟨⟨function, block, descriptors⟩, LoweredCode.generate_eq_ok.mpr ⟨hfunction, hblock, rfl⟩⟩

/-- Code that is delivered is as long as its ops say. -/
theorem size_of_generate {code : TemplateCode} (hsize : 23 + codeSize ops.toList < 2 ^ 31)
    (h : TemplateCode.generate descriptors ops = .ok code) :
    code.bytes.size = 23 + codeSize ops.toList := by
  obtain ⟨hbytes, hblock, -⟩ := TemplateCode.generate_eq_ok.mp h
  obtain ⟨-, hreach⟩ := (exists_templateCode_iff hsize).mp ⟨code.bytes, hbytes⟩
  obtain ⟨bytes, hbytes', hlength⟩ := exists_templateCode hblock hreach hsize
  rwa [← Except.ok.inj (hbytes.symm.trans hbytes')] at hlength

/-! ## Compiled programs -/

/-- The op of a run takes no more code than its instructions may. -/
theorem Run.codeSize_op_le {run : Run} (h : 0 < run.count) :
    run.op.codeSize ≤ 21 * run.count := by
  obtain ⟨instr, count⟩ := run
  have hcount : 0 < count := h
  cases instr with
  | increment | decrement =>
    show (if UInt8.ofNat count = 0 then 0 else 5) ≤ 21 * count
    split <;> omega
  | _ =>
    simp only [Run.op, Op.codeSize]
    omega

/-- No op that replaces a loop takes more code than a transfer. -/
theorem Op.codeSize_le_of_isSpecialized {op : Op} (h : op.isSpecialized = true) :
    op.codeSize ≤ 47 := by
  cases op with
  | setZero | scanUntilZero step | transferAndZero delta =>
    simp only [codeSize]
    omega
  | _ => cases h

namespace Block

variable {options : CompileOptions} {program : Program} {position : Nat}

/-- A loop that is replaced has instructions in its body. -/
theorem width_pos_of_replacement? {body : Block Run} {replacement : Op}
    (hreads : program.Reads position body)
    (h : (body.plain.reduce options).replacement? options = some replacement) : 0 < body.width := by
  cases body with
  | done =>
    -- nothing replaces the empty body
    obtain ⟨items, hitems, hspecialize⟩ := exists_items_of_replacement? h
    cases items with
    | nil => cases hspecialize
    | cons item items => cases hitems
  | op run rest => exact Nat.add_pos_left hreads.1.count_pos _
  | loop body rest => exact Nat.succ_pos _

/-- A part of a program becomes ops of at most 21 bytes for each instruction. -/
theorem codeSize_reduce_le {block : Block Run} (h : program.Reads position block) (start : Nat) :
    codeSize ((block.plain.reduce options).layout start) ≤ 21 * block.width := by
  induction block generalizing position start with
  | done => exact Nat.le_refl _
  | op run rest ih =>
    have hrun := Run.codeSize_op_le h.1.count_pos
    have hrest := ih h.2 (start + 1)
    rw [plain, reduce, layout, codeSize_cons, width]
    omega
  | loop body rest ihbody ihrest =>
    obtain ⟨-, hbody, -, hrest⟩ := h
    rw [plain, width]
    cases hreplacement : (body.plain.reduce options).replacement? options with
    | some replacement =>
      -- two brackets and at least one instruction between them make room for any replacement
      have hpos := width_pos_of_replacement? hbody hreplacement
      have hop := Op.codeSize_le_of_isSpecialized (isSpecialized_of_replacement? hreplacement)
      have hlater := ihrest hrest (start + 1)
      rw [reduce_loop_of_some hreplacement, layout, codeSize_cons]
      omega
    | none =>
      have hinner := ihbody hbody (start + 1)
      have hlater := ihrest hrest (start + (body.plain.reduce options).size + 2)
      rw [reduce_loop_of_none hreplacement, layout, codeSize_cons, codeSize_append, codeSize_cons]
      simp only [Op.codeSize]
      omega

end Block

namespace Program

variable {options : CompileOptions} {program : Program} {stream : Stream}

/-- The code of a compiled program takes at most 21 bytes for each instruction. -/
theorem codeSize_le_of_compile (h : program.compile options = .ok stream) :
    codeSize stream.ops.toList ≤ 21 * program.size := by
  obtain ⟨block, hspells, hops, -⟩ := exists_spells_of_compile h
  rw [hops, size_eq_width hspells]
  exact Block.codeSize_reduce_le (reads_zero_of_spells hspells) 0

/-- The jumps of a compiled program match. -/
theorem matched_of_compile (h : program.compile options = .ok stream) :
    Bracket.Matched Op.side stream.ops.toList := by
  obtain ⟨block, hspells, hops, -⟩ := exists_spells_of_compile h
  have hall := @Block.all_reduce options _ (Block.all_plain_of_spells hspells)
  rw [hops, Bracket.matched_iff_openAfter]
  exact (Block.spells_layout hall 0).openAfter_eq 0

/-- The displacements of a compiled program are in reach if the program is no longer than they may
be. -/
theorem inReach_of_compile (hsize : program.size < 2 ^ 31)
    (h : program.compile options = .ok stream) : ∀ op ∈ stream.ops.toList, op.InReach := by
  intro op hop
  have hwithin := within_of_compile (by omega) h op hop
  cases op with
  | forward count | backward count | scanUntilZero delta | transferAndZero delta =>
    exact Nat.lt_of_le_of_lt hwithin.2 hsize
  | _ => trivial

end Program

/-- Which ops the two code generators accept. If the code from templates is shorter than 2 GiB,
lowering asks for jumps that match and for displacements that are signed 32-bit numbers; templates
ask that none of them is the least such number besides. Both accept what programs of up to about a
hundred million instructions compile to, and there is no more code than 21 bytes for each
instruction and 23 around them. -/
theorem generators_accept (descriptors : Descriptors) :
    (∀ ops : Array Op, 23 + codeSize ops.toList < 2 ^ 31 →
      ((∃ code, LoweredCode.generate descriptors ops = .ok code) ↔
        Bracket.Matched Op.side ops.toList ∧ ∀ op ∈ ops.toList, op.Displaced) ∧
      ((∃ code, TemplateCode.generate descriptors ops = .ok code) ↔
        (∃ code, LoweredCode.generate descriptors ops = .ok code) ∧
          ∀ op ∈ ops.toList,
            op ≠ .scanUntilZero (-2 ^ 31) ∧ op ≠ .transferAndZero (-2 ^ 31)) ∧
      ∀ code, TemplateCode.generate descriptors ops = .ok code →
        code.bytes.size = 23 + codeSize ops.toList) ∧
    ∀ program options stream, Program.compile options program = .ok stream →
      21 * program.size + 23 < 2 ^ 31 →
      (∃ code, LoweredCode.generate descriptors stream.ops = .ok code) ∧
      ∃ code, TemplateCode.generate descriptors stream.ops = .ok code ∧
        code.bytes.size ≤ 21 * program.size + 23 := by
  constructor
  · intro ops hsize
    refine ⟨exists_generate_lowered_iff.trans exists_loweredFunction_iff, ?_,
      fun code hcode => size_of_generate hsize hcode⟩
    rw [exists_generate_template_iff, exists_templateCode_iff hsize, exists_generate_lowered_iff,
      exists_loweredFunction_iff, and_assoc, ← forall₂_and]
    simp only [Op.inReach_iff]
  · intro program options stream hcompile hsize
    have hmatched := Program.matched_of_compile hcompile
    have hreach := Program.inReach_of_compile (by omega) hcompile
    have hle := Program.codeSize_le_of_compile hcompile
    have hshort : 23 + codeSize stream.ops.toList < 2 ^ 31 := by omega
    obtain ⟨code, hcode⟩ := (@exists_generate_template_iff descriptors _).mpr
      ((exists_templateCode_iff hshort).mpr ⟨hmatched, hreach⟩)
    refine ⟨?_, code, hcode, ?_⟩
    · rw [exists_generate_lowered_iff, exists_loweredFunction_iff]
      exact ⟨hmatched, fun op hop => (Op.inReach_iff.mp (hreach op hop)).1⟩
    · rw [size_of_generate hshort hcode]
      omega

/-- A scan by the least signed 32-bit number can be lowered, but there is no template for it. A loop
that moves a cell to the next one is accepted by both generators. -/
theorem generators_accept_leastStep :
    (∃ code, LoweredCode.generate {} #[.scanUntilZero (-2 ^ 31)] = .ok code) ∧
    (¬ ∃ code, TemplateCode.generate {} #[.scanUntilZero (-2 ^ 31)] = .ok code) ∧
    ∃ stream, Program.compile {}
        ⟨#[.loopStart, .decrement, .right, .increment, .left, .loopEnd]⟩ = .ok stream ∧
      (∃ code, LoweredCode.generate {} stream.ops = .ok code) ∧
      ∃ code, TemplateCode.generate {} stream.ops = .ok code ∧ code.bytes.size ≤ 149 := by
  obtain ⟨hops, hcompiled⟩ := generators_accept {}
  obtain ⟨hlowered, htemplate, -⟩ := hops #[.scanUntilZero (-2 ^ 31)] (by decide)
  refine ⟨hlowered.mpr ⟨Bracket.matched_iff_openAfter.mpr rfl, ?_⟩, ?_, ?_⟩
  · simp [Op.Displaced]
  · rw [htemplate]
    rintro ⟨-, hleast⟩
    exact (hleast _ List.mem_cons_self).1 rfl
  · have hcompile : Program.compile {}
        ⟨#[.loopStart, .decrement, .right, .increment, .left, .loopEnd]⟩ =
        .ok ⟨#[.transferAndZero 1], #[0], ⟨0, 0, 1, 0⟩, rfl⟩ := rfl
    exact ⟨_, hcompile, hcompiled _ _ _ hcompile (by decide)⟩

end TapeLang

import TapeLang.Proofs.Reduction

/-!
# Specialized streams

What specialization may change about the runs of a program. Runs that end plainly end in the same
way when loops are replaced, and the other way round a run can only end too early at an op that
sets a cell to zero.

* `Program.specialized_refines`: a plain run that ends is matched by the specialized run.
* `Program.halts_plain_iff`: a specialized run that ends is matched by the plain run if and only if
  it never overshoots; under strict zeroing it never does.
-/

namespace TapeLang

namespace Block

variable {options : CompileOptions} {program : Program} {position : Nat} {block : Block Run}

/-- A run of a program that fits in memory becomes an elementary op. -/
theorem elementary_of_maximalRunAt {run : Run} (hsize : program.size < 2 ^ 63)
    (h : program.MaximalRunAt position run) : run.op.Elementary := by
  have hpos := h.count_pos
  have hcount := Nat.lt_of_le_of_lt h.count_le hsize
  have hside := h.side_eq
  obtain ⟨instr, count⟩ := run
  refine ⟨by rwa [Run.side_op], ?_, ?_⟩
  · cases instr <;> rfl
  · intro count' hcount'
    cases instr <;> simp [Run.op] at hcount'
    · exact hcount' ▸ ⟨hpos, hcount⟩
    · exact hcount' ▸ ⟨hpos, hcount⟩

/-- The runs of a program that fits in memory become elementary ops. -/
theorem all_elementary_of_reads (hsize : program.size < 2 ^ 63)
    (h : program.Reads position block) : block.plain.All Op.Elementary := by
  induction block generalizing position with
  | done => trivial
  | op run rest ih => exact ⟨elementary_of_maximalRunAt hsize h.1, ih h.2⟩
  | loop body rest ihbody ihrest => exact ⟨ihbody h.2.1, ihrest h.2.2.2⟩

/-- Under strict zeroing no condition is needed. -/
theorem screens_of_strict {block : Block Op} (hstrict : options.strictZeroing = true)
    (index : Nat) : block.Screens options (fun _ => True) index := by
  induction block generalizing index with
  | done => trivial
  | op item rest ih => exact ⟨fun _ => trivial, ih (index + 1)⟩
  | loop body rest ihbody ihrest =>
    rw [Screens]
    cases hreplacement : (body.reduce options).replacement? options with
    | some replacement =>
      refine ⟨fun items machine hbody => ?_, ihrest _⟩
      obtain ⟨items', hbody', hspecialize⟩ := exists_items_of_replacement? hreplacement
      obtain rfl : items = items' := (foldr_op_eq_iff _ _).mp (hbody.symm.trans hbody')
      rw [hstrict] at hspecialize
      exact iff_of_true trivial (clears_of_strict hspecialize machine)
    | none => exact ⟨fun _ _ _ => trivial, ihbody _, ihrest _⟩

end Block

/-- The configurations in which a run of ops carries out an op, in order. -/
def Bytecode.trailFrom (ops : Array Op) (fuel : Nat) (config : Config) : List Config :=
  trail (fun config => ops[config.position]?) (step ops.size) fuel config

namespace Program

/-- A loop at a position adds one to a cell `count` times in a round, or subtracts it, and does
nothing else. -/
structure ZeroingLoopAt (program : Program) (position count : Nat) : Prop where
  /-- The loop starts there. -/
  start_eq : program.get? position = some .loopStart
  /-- Its body is not empty. -/
  count_pos : 0 < count
  /-- Its body repeats one of the two instructions. -/
  body_eq : (∀ k < count, program.get? (position + 1 + k) = some .increment) ∨
    ∀ k < count, program.get? (position + 1 + k) = some .decrement
  /-- The loop ends behind the body. -/
  end_eq : program.get? (position + 1 + count) = some .loopEnd

/-- A run of a stream overshoots in a configuration: it sets a cell to zero, for a loop that never
reaches zero from the value of the cell. -/
def Overshoots (program : Program) (stream : Stream) (config : Config) : Prop :=
  stream.get? config.position = some .setZero ∧
    ∃ position count, stream.position? config.position = some position ∧
      program.ZeroingLoopAt position count ∧
      ¬ Nat.gcd count 256 ∣ config.machine.tape.current.toNat

variable {options : CompileOptions} {program : Program} {stream : Stream} {index position : Nat}
  {body rest : Block Run}

/-- A body that repeats one instruction up to the loop end is a single run. -/
theorem eq_run_of_body {instr : Instr} {count : Nat} (hside : instr.side = none)
    (hbody : program.Reads position body)
    (hend : program.get? (position + body.width) = some .loopEnd)
    (hpos : 0 < count) (hinstrs : ∀ k < count, program.get? (position + k) = some instr)
    (hclose : program.get? (position + count) = some .loopEnd) :
    body = .op ⟨instr, count⟩ .done := by
  have hfirst := hinstrs 0 hpos
  cases body with
  | done =>
    cases hfirst.symm.trans hend
    cases hside
  | loop inner rest =>
    cases hfirst.symm.trans hbody.1
    cases hside
  | op run rest =>
    obtain ⟨hrun, hrest⟩ := hbody
    obtain rfl : instr = run.instr := by
      simpa using hfirst.symm.trans (hrun.get_eq 0 hrun.count_pos)
    -- the run is cut off by another instruction, and the loop end is the first one behind it
    have hcount : run.count = count := by
      rcases Nat.lt_trichotomy run.count count with hlt | heq | hgt
      · exact absurd (hinstrs run.count hlt) hrun.behind
      · exact heq
      · have hinstr := hclose.symm.trans (hrun.get_eq count hgt)
        rw [← Option.some.inj hinstr] at hside
        cases hside
    rw [hcount] at hrest
    -- nothing but the loop end follows the run
    cases rest with
    | done => rw [← hcount]
    | op next later =>
      have hinstr := hclose.symm.trans (hrest.1.get_eq 0 hrest.1.count_pos)
      have hnext := hrest.1.side_eq
      rw [Run.side, ← Option.some.inj hinstr] at hnext
      cases hnext
    | loop inner later => cases hclose.symm.trans hrest.1

/-- A run that becomes a single op without anything behind it is the whole body. -/
theorem body_of_plain_eq {op : Op} (h : body.plain = .op op .done) :
    ∃ run, body = .op run .done ∧ run.op = op := by
  cases body with
  | done => cases h
  | loop inner rest => cases h
  | op run rest =>
    cases rest with
    | done =>
      cases h
      exact ⟨run, rfl, rfl⟩
    | op next later => cases h
    | loop inner later => cases h

/-- A loop that the program reads adds or subtracts a constant if and only if its body compiles to
the one op that does this. -/
theorem zeroingLoopAt_iff (h : program.Reads position (.loop body rest)) {count : Nat} :
    program.ZeroingLoopAt position count ↔
      body.plain = .op (.add count) .done ∨ body.plain = .op (.sub count) .done := by
  obtain ⟨hstart, hbody, hend, -⟩ := h
  rw [Nat.add_right_comm] at hend
  constructor
  · rintro ⟨-, hpos, hinstrs | hinstrs, hclose⟩
    · rw [eq_run_of_body rfl hbody hend hpos hinstrs hclose]
      exact Or.inl rfl
    · rw [eq_run_of_body rfl hbody hend hpos hinstrs hclose]
      exact Or.inr rfl
  · rintro (hplain | hplain)
    · obtain ⟨⟨instr, count'⟩, rfl, hop⟩ := body_of_plain_eq hplain
      cases instr <;> cases hop
      exact ⟨hstart, hbody.1.count_pos, Or.inl hbody.1.get_eq, hend⟩
    · obtain ⟨⟨instr, count'⟩, rfl, hop⟩ := body_of_plain_eq hplain
      cases instr <;> cases hop
      exact ⟨hstart, hbody.1.count_pos, Or.inr hbody.1.get_eq, hend⟩

/-- A loop that is replaced adds or subtracts a constant if and only if it is replaced by setting
the cell to zero. -/
theorem replacement_eq_setZero {strict : Bool} {items : List Op} {replacement : Op} {count : Nat}
    (h : specialize strict items = some replacement)
    (hitems : items = [.add count] ∨ items = [.sub count]) : replacement = .setZero := by
  rcases hitems with rfl | rfl
  · rw [specialize] at h
    split at h <;> cases h
    rfl
  · rw [specialize] at h
    split at h <;> cases h
    rfl

/-- Not to overshoot is the condition under which the rounds of all replaced loops reach zero. -/
theorem screens_of_reads {block : Block Run} (h : program.Reads position block)
    (hlaid : (block.plain.reduce options).LaidOut stream.ops index)
    (htraced : block.Traced options stream.positions index position) :
    block.plain.Screens options (fun config => ¬ program.Overshoots stream config) index := by
  induction block generalizing index position with
  | done => trivial
  | op run rest ih =>
    refine ⟨fun machine hover => ?_, ih h.2 hlaid.2 htraced.2⟩
    have hop : stream.ops[index]? = some .setZero := hover.1
    have hset := hlaid.1.symm.trans hop
    obtain ⟨instr, count⟩ := run
    cases instr <;> cases hset
  | loop body rest ihbody ihrest =>
    rw [Block.Traced] at htraced
    rw [Block.plain, Block.Screens]
    rw [Block.plain] at hlaid
    cases hreplacement : (body.plain.reduce options).replacement? options with
    | some replacement =>
      simp only [hreplacement] at htraced ⊢
      rw [Block.reduce_loop_of_some hreplacement] at hlaid
      refine ⟨fun items machine hitems => ?_, ihrest h.2.2.2 hlaid.2 htraced.2⟩
      obtain ⟨items', hitems', hspecialize⟩ := Block.exists_items_of_replacement? hreplacement
      obtain rfl : items = items' := (Block.foldr_op_eq_iff _ _).mp (hitems.symm.trans hitems')
      -- the loop in the program is a zeroing loop exactly if the body that was replaced is one
      have hzeroing : ∀ count, program.ZeroingLoopAt position count ↔
          items = [.add count] ∨ items = [.sub count] := by
        intro count
        rw [zeroingLoopAt_iff h, hitems]
        exact or_congr (Block.foldr_op_eq_iff items [_]) (Block.foldr_op_eq_iff items [_])
      constructor
      · intro hgood count hcount
        by_contra hndvd
        rw [replacement_eq_setZero hspecialize hcount] at hlaid
        exact hgood ⟨hlaid.1, position, count, htraced.1, (hzeroing count).mpr hcount, hndvd⟩
      · rintro hclears ⟨-, position', count, hposition, hloop, hndvd⟩
        obtain rfl : position = position' :=
          Option.some.inj (htraced.1.symm.trans hposition)
        exact hndvd (hclears count ((hzeroing count).mp hloop))
    | none =>
      simp only [hreplacement] at htraced ⊢
      rw [Block.reduce_loop_of_none hreplacement] at hlaid
      obtain ⟨hstart, hbody, hend, hrest⟩ := hlaid
      refine ⟨?_, ihbody h.2.1 hbody htraced.2.1, ihrest h.2.2.2 hrest htraced.2.2.2⟩
      rintro tested machine (rfl | rfl) hover
      · have hset := hstart.symm.trans hover.1
        cases hset
      · have hset := hend.symm.trans hover.1
        cases hset

/-- A run without specialization that ends is matched by the run with specialization. That ends as
well, and it reports the same and leaves the machine in the same state. There is one exception: if
moving a value fails, the current cell still holds the value, while without specialization one has
been subtracted from it. The program has to fit in memory, so that a word can count its runs. -/
theorem specialized_refines (hsize : program.size < 2 ^ 63) {strict : Bool} {plain : Stream}
    (hplain : program.compile ⟨false, strict⟩ = .ok plain) {machine : Machine}
    {outcome : Outcome Config}
    (hends : EndsWith (Bytecode.runFrom plain.ops · ⟨0, machine⟩) outcome) :
    ∃ special, program.compile ⟨true, strict⟩ = .ok special ∧
      ∃ outcome', EndsWith (Bytecode.runFrom special.ops · ⟨0, machine⟩) outcome' ∧
        Agrees special.ops outcome outcome' := by
  obtain ⟨block, hspells, hops, -⟩ := exists_spells_of_compile hplain
  obtain ⟨special, hspecial, hops', hpositions⟩ :=
    compile_of_spells ⟨true, strict⟩ hspells
  have hreads := reads_zero_of_spells hspells
  have hside := Block.all_plain_of_spells hspells
  have hlaid := Block.laidOut_of_toList_eq hops'
  have hscreens := screens_of_reads hreads hlaid
    (Block.traced_of_append [] [] (by simpa using hpositions))
  rw [Block.reduce_of_not_specializeLoops rfl] at hops
  obtain ⟨visited, hexec⟩ := (Bytecode.endsWith_iff_exec hops hside).mp hends
  obtain ⟨visited', outcome', hexec', -, hagrees⟩ :=
    Block.exec_reduce hexec (Block.all_elementary_of_reads hsize hreads) 0 0 hscreens hlaid
      (Block.meets_start _ _ _)
  exact ⟨special, hspecial, outcome',
    (Bytecode.endsWith_iff_exec hops' (Block.all_reduce hside)).mpr ⟨visited', hexec'⟩, hagrees⟩

/-- The exception is met by a program that adds one to the first cell and moves it to the left: the
run without specialization has subtracted the one again when it fails. -/
theorem specialized_refines_moveLeft :
    ∃ special, Program.compile ⟨true, false⟩
        ⟨#[.increment, .loopStart, .decrement, .left, .increment, .right, .loopEnd]⟩ = .ok special ∧
      ∃ outcome', EndsWith
          (Bytecode.runFrom special.ops · ⟨0, .blank, .ofBytes [], .unlimited⟩) outcome' ∧
        Agrees special.ops
          (.failed (.outOfRange (-1)) ⟨3, .blank, .ofBytes [], .unlimited⟩) outcome' :=
  have hplain : Program.compile ⟨false, false⟩
      ⟨#[.increment, .loopStart, .decrement, .left, .increment, .right, .loopEnd]⟩ =
      .ok ⟨#[.add 1, .jumpIfZero 6, .sub 1, .backward 1, .add 1, .forward 1, .jumpIfNotZero 1],
        #[0, 1, 2, 3, 4, 5, 6], ⟨0, 0, 0, 1⟩, rfl⟩ := rfl
  specialized_refines (by decide) hplain ⟨by simp [Outcome.Terminates], 4, rfl⟩

/-- A run with specialization that ends is matched by the run without specialization if and only if
it never overshoots. Under strict zeroing the one run ends if and only if the other does. -/
theorem halts_plain_iff (hsize : program.size < 2 ^ 63) {strict : Bool} {special : Stream}
    (hspecial : program.compile ⟨true, strict⟩ = .ok special) (machine : Machine) :
    ∃ plain, program.compile ⟨false, strict⟩ = .ok plain ∧
      (Halts (Bytecode.runFrom special.ops · ⟨0, machine⟩) →
        (Halts (Bytecode.runFrom plain.ops · ⟨0, machine⟩) ↔
          ∀ fuel, ∀ config ∈ Bytecode.trailFrom special.ops fuel ⟨0, machine⟩,
            ¬ program.Overshoots special config)) ∧
      (strict = true → (Halts (Bytecode.runFrom plain.ops · ⟨0, machine⟩) ↔
        Halts (Bytecode.runFrom special.ops · ⟨0, machine⟩))) := by
  obtain ⟨block, hspells, hops', hpositions⟩ := exists_spells_of_compile hspecial
  obtain ⟨plain, hplain, hops, -⟩ := compile_of_spells ⟨false, strict⟩ hspells
  have hreads := reads_zero_of_spells hspells
  have hside := Block.all_plain_of_spells hspells
  have hall := Block.all_elementary_of_reads hsize hreads
  have hlaid := Block.laidOut_of_toList_eq hops'
  have hscreens := screens_of_reads hreads hlaid
    (Block.traced_of_append [] [] (by simpa using hpositions))
  rw [Block.reduce_of_not_specializeLoops rfl] at hops
  have hhalts := Bytecode.halts_iff_exec hops hside machine
  have hhalts' := Bytecode.halts_iff_exec hops' (Block.all_reduce hside) machine
  refine ⟨plain, hplain, fun hend => ⟨fun hend' fuel config hmem => ?_, fun hgood => ?_⟩,
    fun hstrict => ⟨fun hend => ?_, fun hend => ?_⟩⟩
  · obtain ⟨visited, outcome, hexec⟩ := hhalts.mp hend'
    obtain ⟨visited', outcome', hexec', hgood, -⟩ :=
      Block.exec_reduce hexec hall 0 0 hscreens hlaid (Block.meets_start _ _ _)
    have hwalks := (Bytecode.walks_iff_exec hops' (Block.all_reduce hside)).mpr hexec'
    exact hgood config (hwalks.mem_of_mem_trail hmem)
  · obtain ⟨visited, outcome, hexec⟩ := hhalts'.mp hend
    have hwalks := (Bytecode.walks_iff_exec hops' (Block.all_reduce hside)).mpr hexec
    have hvisited : ∀ shown ∈ visited, ¬ program.Overshoots special shown := by
      intro shown hmem
      obtain ⟨fuel, hshown⟩ := hwalks.mem_visited_iff.mp hmem
      exact hgood fuel shown hshown
    obtain ⟨visited', outcome', hexec', -⟩ :=
      Block.exec_of_exec_reduce hexec rfl hall hscreens hvisited 0
        (Block.meets_start 0 _ _)
    exact hhalts.mpr ⟨visited', outcome', hexec'⟩
  · obtain ⟨visited, outcome, hexec⟩ := hhalts.mp hend
    obtain ⟨visited', outcome', hexec', -⟩ :=
      Block.exec_reduce hexec hall 0 0 hscreens hlaid (Block.meets_start _ _ _)
    exact hhalts'.mpr ⟨visited', outcome', hexec'⟩
  · obtain ⟨visited, outcome, hexec⟩ := hhalts'.mp hend
    obtain ⟨visited', outcome', hexec', -⟩ :=
      Block.exec_of_exec_reduce hexec rfl hall (Block.screens_of_strict hstrict 0)
        (fun _ _ => trivial) 0 (Block.meets_start 0 _ _)
    exact hhalts.mpr ⟨visited', outcome', hexec'⟩

/-- A loop that subtracts two in each round is replaced by setting the cell to zero, unless zeroing
is strict. -/
theorem halts_plain_iff_subtractTwo :
    ∃ plain, Program.compile ⟨false, false⟩
        ⟨#[.increment, .loopStart, .decrement, .decrement, .loopEnd]⟩ = .ok plain ∧
      (Halts (Bytecode.runFrom #[.add 1, .setZero] · ⟨0, .blank, .ofBytes [], .unlimited⟩) →
        (Halts (Bytecode.runFrom plain.ops · ⟨0, .blank, .ofBytes [], .unlimited⟩) ↔
          ∀ fuel, ∀ config ∈ Bytecode.trailFrom #[.add 1, .setZero] fuel
            ⟨0, .blank, .ofBytes [], .unlimited⟩,
            ¬ Program.Overshoots ⟨#[.increment, .loopStart, .decrement, .decrement, .loopEnd]⟩
              ⟨#[.add 1, .setZero], #[0, 1], ⟨1, 0, 0, 0⟩, rfl⟩ config)) ∧
      (false = true → (Halts (Bytecode.runFrom plain.ops · ⟨0, .blank, .ofBytes [], .unlimited⟩) ↔
        Halts (Bytecode.runFrom #[.add 1, .setZero] · ⟨0, .blank, .ofBytes [], .unlimited⟩))) :=
  have hspecial : Program.compile ⟨true, false⟩
      ⟨#[.increment, .loopStart, .decrement, .decrement, .loopEnd]⟩ =
      .ok ⟨#[.add 1, .setZero], #[0, 1], ⟨1, 0, 0, 0⟩, rfl⟩ := rfl
  halts_plain_iff (by decide) hspecial ⟨.blank, .ofBytes [], .unlimited⟩

end Program

end TapeLang

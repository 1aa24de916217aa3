import TapeLang.Proofs.Loops
import TapeLang.Proofs.Specialization

/-!
# The source of compiled streams

The ops of a compiled stream cut the program into parts, one part for each op, with nothing left
over. The instructions of a part determine its op, up to the target of a jump, so that a program is
found again in its stream: from its source positions, and from its ops alone where no loop has been
replaced.

## Main definitions

* `Idiom`: the loops with a known effect, as instructions.
* `Op.Covers`: the instructions that an op stands for.
* `Lies`: the ops of a stream from an index on come from a block of runs at a position.
* `Stream.TilesOf`: a stream cuts a program into the parts that its ops stand for.

## Main results

* `idiom_of_specialize` and `exists_runs_of_idiom`: the loops that are replaced are those with a
  known effect.
* `comesFrom_of_lies`: what each op of a stream comes from.
* `Program.compile_tiles`: a compiled stream tiles its program.
-/

namespace TapeLang

/-- The bodies of the loops whose effect is known, as runs, with the ops that stand for the loops.
With `strict` a loop that adds or subtracts a constant is one of them only if the constant is
odd. -/
inductive Idiom (strict : Bool) : Op → List Run → Prop
  /-- A loop that adds a constant. -/
  | addUntilZero {count : Nat} (hpos : 0 < count) (hodd : strict = true → count % 2 = 1) :
      Idiom strict .setZero [⟨.increment, count⟩]
  /-- A loop that subtracts a constant. -/
  | subUntilZero {count : Nat} (hpos : 0 < count) (hodd : strict = true → count % 2 = 1) :
      Idiom strict .setZero [⟨.decrement, count⟩]
  /-- A loop that looks for a zero to the right. -/
  | scanRight {distance : Nat} (hpos : 0 < distance) :
      Idiom strict (.scanUntilZero distance) [⟨.right, distance⟩]
  /-- A loop that looks for a zero to the left. -/
  | scanLeft {distance : Nat} (hpos : 0 < distance) :
      Idiom strict (.scanUntilZero (-distance)) [⟨.left, distance⟩]
  /-- A loop that moves a value to the right. -/
  | transferRight {distance : Nat} (hpos : 0 < distance) :
      Idiom strict (.transferAndZero distance)
        [⟨.decrement, 1⟩, ⟨.right, distance⟩, ⟨.increment, 1⟩, ⟨.left, distance⟩]
  /-- A loop that moves a value to the left. -/
  | transferLeft {distance : Nat} (hpos : 0 < distance) :
      Idiom strict (.transferAndZero (-distance))
        [⟨.decrement, 1⟩, ⟨.left, distance⟩, ⟨.increment, 1⟩, ⟨.right, distance⟩]

/-- The instructions of a loop with these runs as its body. -/
def Run.enclosed (runs : List Run) : List Instr :=
  .loopStart :: (runs.flatMap Run.expand ++ [.loopEnd])

/-- The instructions that an op stands for: a run of as many instructions as it counts, a bracket
alone, or a loop with a known effect. -/
inductive Op.Covers (strict : Bool) : Op → List Instr → Prop
  /-- The op of a run. -/
  | run {run : Run} (hside : run.side = none) (hpos : 0 < run.count) :
      Covers strict run.op run.expand
  /-- The jump of a loop start. -/
  | opening {target : Nat} : Covers strict (.jumpIfZero target) [.loopStart]
  /-- The jump of a loop end. -/
  | closing {target : Nat} : Covers strict (.jumpIfNotZero target) [.loopEnd]
  /-- The op that replaces a loop. -/
  | idiom {op : Op} {runs : List Run} (hidiom : Idiom strict op runs) :
      Covers strict op (Run.enclosed runs)

/-- The instructions that an op stands for, each character as often as the op counts. An op that
replaces a loop does not tell the loop. -/
def Op.expand : Op → List Instr
  | .forward count => List.replicate count .right
  | .backward count => List.replicate count .left
  | .add count => List.replicate count .increment
  | .sub count => List.replicate count .decrement
  | .write count => List.replicate count .write
  | .read count => List.replicate count .read
  | .jumpIfZero _ => [.loopStart]
  | .jumpIfNotZero _ => [.loopEnd]
  | .setZero | .scanUntilZero _ | .transferAndZero _ => []

namespace Run

/-- The op of a run stands for the instructions of the run. -/
theorem expand_op {run : Run} (hside : run.side = none) : run.op.expand = run.expand := by
  obtain ⟨instr, count⟩ := run
  cases instr <;> first | rfl | cases hside

/-- The kind of the op of a run is the one that its instruction has. -/
theorem ofInstr?_instr {run : Run} (hside : run.side = none) :
    Op.Kind.ofInstr? run.instr = some run.op.kind := by
  obtain ⟨instr, count⟩ := run
  cases instr <;> first | rfl | cases hside

/-- The op of a run that is no bracket is the op of no other run. -/
theorem eq_of_op_eq {run other : Run} (hside : other.side = none) (h : run.op = other.op) :
    run = other := by
  obtain ⟨instr, count⟩ := run
  obtain ⟨instr', count'⟩ := other
  cases instr <;> cases instr' <;> simp_all [op, side, Instr.side]

/-- Runs without brackets are determined by their ops. -/
theorem eq_of_map_op_eq {runs others : List Run} (hside : ∀ run ∈ others, run.side = none)
    (h : runs.map op = others.map op) : runs = others := by
  induction others generalizing runs with
  | nil => exact List.map_eq_nil_iff.mp h
  | cons other others ih =>
    obtain ⟨run, runs, rfl, hrun, hruns⟩ := List.map_eq_cons_iff.mp h
    obtain ⟨hother, hothers⟩ := List.forall_mem_cons.mp hside
    rw [eq_of_op_eq hother hrun, ih hothers hruns]

/-- A run is found again in its instructions. -/
theorem expand_inj {run other : Run} (hproper : run.Proper) (hproper' : other.Proper)
    (h : run.expand = other.expand) : run = other := by
  have hrun := foldr_push_expand hproper (List.isChain_singleton run)
  rw [h, foldr_push_expand hproper' (List.isChain_singleton other)] at hrun
  exact (List.cons.inj hrun).1.symm

/-- The runs of a loop are found again in its instructions. -/
theorem enclosed_inj {runs others : List Run} (hproper : ∀ run ∈ runs, run.Proper)
    (hchain : runs.IsChain Apart) (hproper' : ∀ run ∈ others, run.Proper)
    (hchain' : others.IsChain Apart) (h : enclosed runs = enclosed others) :
    runs = others := by
  have hinner : runs.flatMap expand = others.flatMap expand :=
    List.append_cancel_right (List.cons.inj h).2
  rw [← foldr_push_flatMap hproper hchain, hinner, foldr_push_flatMap hproper' hchain']

/-- A run does not start with a bracket. -/
theorem expand_ne_of_side {run : Run} (hside : run.side = none) (hpos : 0 < run.count)
    {bracket : Instr} (hbracket : bracket.side ≠ none) (instrs : List Instr) :
    run.expand ≠ bracket :: instrs := by
  obtain ⟨count, hcount⟩ := Nat.exists_eq_succ_of_ne_zero hpos.ne'
  rw [expand, hcount, List.replicate_succ]
  intro heq
  rw [← (List.cons.inj heq).1] at hbracket
  exact hbracket hside

end Run

/-- An instruction is told by the kind of op that its runs become. -/
theorem Op.Kind.eq_of_ofInstr? {instr other : Instr} {kind : Op.Kind}
    (h : Op.Kind.ofInstr? instr = some kind) (hother : Op.Kind.ofInstr? other = some kind) :
    instr = other := by
  cases instr <;> cases h <;> cases other <;> first | rfl | cases hother

/-- An op of a kind that instructions have is no jump and stands for no loop. -/
theorem Op.Kind.plain_of_ofInstr? {instr : Instr} {op : Op}
    (h : Op.Kind.ofInstr? instr = some op.kind) : op.side = none ∧ op.isSpecialized = false := by
  cases instr <;> cases op <;> simp_all [Op.Kind.ofInstr?, Op.kind, Op.side, Op.isSpecialized]

namespace Idiom

variable {strict : Bool} {op : Op} {runs : List Run}

/-- Loops with the same body have the same op standing for them. -/
theorem unique {other : Op} (h : Idiom strict op runs)
    (h' : Idiom strict other runs) : op = other := by
  cases h <;> cases h' <;> rfl

/-- The body of a loop with a known effect holds no brackets. -/
theorem side_eq (h : Idiom strict op runs) : ∀ run ∈ runs, run.side = none := by
  cases h <;> simp [Run.side, Instr.side]

/-- The runs of the body of a loop with a known effect are not empty. -/
theorem proper (h : Idiom strict op runs) : ∀ run ∈ runs, run.Proper := by
  intro run hmem
  refine ⟨?_, fun hside => absurd (h.side_eq run hmem) hside⟩
  revert run
  cases h <;> simpa

/-- Nor do they join. -/
theorem isChain (h : Idiom strict op runs) : runs.IsChain Run.Apart := by
  cases h <;> simp [Run.Apart]

/-- What stands for a loop with a known effect is found for its body. -/
theorem specialize_eq (h : Idiom strict op runs) (hcount : ∀ run ∈ runs, run.count < 2 ^ 63) :
    specialize strict (runs.map Run.op) = some op := by
  cases h with
  | addUntilZero _ hodd => cases strict <;> simp_all [Run.op, specialize]
  | subUntilZero _ hodd => cases strict <;> simp_all [Run.op, specialize]
  | @scanRight distance =>
    have hlt : distance < 2 ^ 63 := hcount ⟨.right, distance⟩ (by simp)
    simp [Run.op, specialize, signedWord_natCast hlt]
  | @scanLeft distance =>
    have hlt : distance < 2 ^ 63 := hcount ⟨.left, distance⟩ (by simp)
    have hopposite := signedWord_neg_signedWord hlt
    rw [signedWord_natCast hlt] at hopposite
    simp [Run.op, specialize, hopposite, signedWord_natCast hlt]
  | @transferRight distance =>
    have hlt : distance < 2 ^ 63 := hcount ⟨.right, distance⟩ (by simp)
    simp [Run.op, specialize, signedWord_natCast hlt]
  | @transferLeft distance =>
    have hlt : distance < 2 ^ 63 := hcount ⟨.left, distance⟩ (by simp)
    have hopposite := signedWord_neg_signedWord hlt
    rw [signedWord_natCast hlt] at hopposite
    simp [Run.op, specialize, hopposite, signedWord_natCast hlt]

/-- A loop that is replaced is one with a known effect. -/
theorem of_specialize (hpos : ∀ run ∈ runs, 0 < run.count)
    (hcount : ∀ run ∈ runs, run.count < 2 ^ 63)
    (h : specialize strict (runs.map Run.op) = some op) : Idiom strict op runs := by
  -- one case for each pattern of ops, which comes from one list of runs only
  unfold specialize at h
  split at h
  case h_1 step hops =>
    obtain rfl : runs = [⟨.increment, step⟩] :=
      Run.eq_of_map_op_eq (by simp [Run.side, Instr.side]) hops
    split at h
    · cases h
    · next hodd =>
      cases h
      exact .addUntilZero (hpos _ List.mem_cons_self) (by simpa using hodd)
  case h_2 step hops =>
    obtain rfl : runs = [⟨.decrement, step⟩] :=
      Run.eq_of_map_op_eq (by simp [Run.side, Instr.side]) hops
    split at h
    · cases h
    · next hodd =>
      cases h
      exact .subUntilZero (hpos _ List.mem_cons_self) (by simpa using hodd)
  case h_3 step hops =>
    obtain rfl : runs = [⟨.right, step⟩] :=
      Run.eq_of_map_op_eq (by simp [Run.side, Instr.side]) hops
    cases h
    -- the distance is written as a word, which it fits
    have hstep : step < 2 ^ 63 := hcount _ List.mem_cons_self
    rw [signedWord_natCast hstep]
    exact .scanRight (hpos _ List.mem_cons_self)
  case h_4 step hops =>
    obtain rfl : runs = [⟨.left, step⟩] :=
      Run.eq_of_map_op_eq (by simp [Run.side, Instr.side]) hops
    cases h
    have hstep : step < 2 ^ 63 := hcount _ List.mem_cons_self
    rw [signedWord_neg_signedWord hstep, signedWord_natCast hstep]
    exact .scanLeft (hpos _ List.mem_cons_self)
  case h_5 out back hops =>
    obtain rfl : runs = [⟨.decrement, 1⟩, ⟨.right, out⟩, ⟨.increment, 1⟩, ⟨.left, back⟩] :=
      Run.eq_of_map_op_eq (by simp [Run.side, Instr.side]) hops
    split at h
    · next heq =>
      cases h
      subst heq
      rw [signedWord_natCast (hcount ⟨.right, out⟩ (by simp))]
      exact .transferRight (hpos ⟨.right, out⟩ (by simp))
    · cases h
  case h_6 out back hops =>
    obtain rfl : runs = [⟨.decrement, 1⟩, ⟨.left, out⟩, ⟨.increment, 1⟩, ⟨.right, back⟩] :=
      Run.eq_of_map_op_eq (by simp [Run.side, Instr.side]) hops
    split at h
    · next heq =>
      cases h
      subst heq
      have hout : out < 2 ^ 63 := hcount ⟨.left, out⟩ (by simp)
      rw [signedWord_neg_signedWord hout, signedWord_natCast hout]
      exact .transferLeft (hpos ⟨.left, out⟩ (by simp))
    · cases h
  case h_7 => cases h

end Idiom

/-- The instructions determine the op that stands for them, up to the target of a jump. -/
theorem Op.Covers.unique {strict : Bool} {op other : Op} {slice : List Instr}
    (h : op.Covers strict slice) (h' : other.Covers strict slice) :
    other = op ∨ other.isJump = true ∧ other.kind = op.kind := by
  -- a run begins with no bracket, and a bracket alone is shorter than a loop
  cases h with
  | @run run hside hpos =>
    generalize hslice : run.expand = slice at h'
    cases h' with
    | @run run' hside' hpos' =>
      rw [Run.expand_inj ⟨hpos, fun hbracket => absurd hside hbracket⟩
        ⟨hpos', fun hbracket => absurd hside' hbracket⟩ hslice]
      exact .inl rfl
    | opening => exact absurd hslice (Run.expand_ne_of_side hside hpos (by decide) _)
    | closing => exact absurd hslice (Run.expand_ne_of_side hside hpos (by decide) _)
    | idiom => exact absurd hslice (Run.expand_ne_of_side hside hpos (by decide) _)
  | opening =>
    generalize hslice : [Instr.loopStart] = slice at h'
    cases h' with
    | run hside hpos => exact absurd hslice.symm (Run.expand_ne_of_side hside hpos (by decide) _)
    | opening => exact .inr ⟨rfl, rfl⟩
    | closing => cases hslice
    | idiom => simp [Run.enclosed] at hslice
  | closing =>
    generalize hslice : [Instr.loopEnd] = slice at h'
    cases h' with
    | run hside hpos => exact absurd hslice.symm (Run.expand_ne_of_side hside hpos (by decide) _)
    | opening => cases hslice
    | closing => exact .inr ⟨rfl, rfl⟩
    | idiom => cases hslice
  | @idiom _ runs hidiom =>
    generalize hslice : Run.enclosed runs = slice at h'
    cases h' with
    | run hside hpos => exact absurd hslice.symm (Run.expand_ne_of_side hside hpos (by decide) _)
    | opening => simp [Run.enclosed] at hslice
    | closing => cases hslice
    | idiom hidiom' =>
      obtain rfl := Run.enclosed_inj hidiom.proper hidiom.isChain hidiom'.proper
        hidiom'.isChain hslice
      exact .inl (hidiom'.unique hidiom)

namespace Block

/-- The runs of a block in order, with a run for each bracket. -/
def runs : Block Run → List Run
  | done => []
  | op run rest => run :: rest.runs
  | loop body rest => ⟨.loopStart, 1⟩ :: (body.runs ++ ⟨.loopEnd, 1⟩ :: rest.runs)

/-- A block without brackets is made of its runs. -/
theorem eq_foldr_of_runs {block : Block Run} (hside : ∀ run ∈ block.runs, run.side = none) :
    block = block.runs.foldr .op .done := by
  induction block with
  | done => rfl
  | op run rest ih =>
    rw [runs, List.foldr_cons, ← ih fun other hmem => hside other (List.mem_cons_of_mem _ hmem)]
  | loop body rest =>
    have hstart := hside ⟨.loopStart, 1⟩ List.mem_cons_self
    cases hstart

/-- Runs without brackets become one op each. -/
theorem plain_foldr_op (runs : List Run) :
    (runs.foldr Block.op .done).plain = (runs.map Run.op).foldr .op .done := by
  induction runs with
  | nil => rfl
  | cons run runs ih => rw [List.foldr_cons, plain, ih, List.map_cons, List.foldr_cons]

/-- Items without loops are not changed by replacing loops. -/
theorem reduce_foldr_op (options : CompileOptions) (items : List Op) :
    (items.foldr Block.op .done).reduce options = items.foldr .op .done := by
  induction items with
  | nil => rfl
  | cons item items ih => rw [List.foldr_cons, reduce, ih]

end Block

namespace Program

variable {program : Program} {position start stop : Nat} {block body rest : Block Run} {run : Run}

/-- The instructions of a program from one position up to another. -/
def slice (program : Program) (start stop : Nat) : List Instr :=
  (program.instrs.extract start stop).toList

/-- Slices that meet are one slice. -/
theorem slice_append (hstart : start ≤ position) (hstop : position ≤ stop) :
    program.slice start position ++ program.slice position stop = program.slice start stop := by
  rw [slice, slice, ← Array.toList_append, Array.extract_append_extract,
    Nat.min_eq_left hstart, Nat.max_eq_right hstop, slice]

/-- An instruction is a slice. -/
theorem slice_succ {instr : Instr} (h : program.get? position = some instr) :
    program.slice position (position + 1) = [instr] := by
  obtain ⟨hlt, rfl⟩ := Array.getElem?_eq_some_iff.mp h
  rw [slice, Array.toList_extract, List.extract, Nat.add_sub_cancel_left,
    List.drop_eq_getElem_cons (by simpa using hlt), List.take_succ_cons, List.take_zero,
    Array.getElem_toList]

/-- A maximal run is a slice. -/
theorem MaximalRunAt.slice_eq (h : program.MaximalRunAt position run) :
    program.slice position (position + run.count) = run.expand := by
  have hslice : ∀ k ≤ run.count,
      program.slice position (position + k) = List.replicate k run.instr := by
    intro k hk
    induction k with
    | zero => simp [slice]
    | succ k ih =>
      rw [← Nat.add_assoc, ← slice_append (Nat.le_add_right position k) (Nat.le_succ _),
        ih (by omega), slice_succ (h.get_eq k (by omega)), List.replicate_succ']
  exact hslice run.count (Nat.le_refl _)

/-- A block that a program reads is a slice, cut into its runs. -/
theorem slice_of_reads (h : program.Reads position block) :
    program.slice position (position + block.width) = block.runs.flatMap Run.expand := by
  induction block generalizing position with
  | done => simp [slice, Block.width, Block.runs]
  | op run rest ih =>
    rw [Block.width, ← Nat.add_assoc, ← slice_append (Nat.le_add_right position run.count)
      (Nat.le_add_right _ _), h.1.slice_eq, ih h.2, Block.runs, List.flatMap_cons]
  | loop body rest ihbody ihrest =>
    obtain ⟨hstart, hbody, hend, hrest⟩ := h
    have hwidth : position + (Block.loop body rest).width =
        position + body.width + 2 + rest.width := by
      rw [Block.width]
      omega
    have hlast := slice_succ hend
    have hinner := ihbody hbody
    rw [Nat.add_right_comm] at hinner
    -- the opening bracket, the body, the closing bracket and the rest
    rw [hwidth, ← slice_append (Nat.le_add_right position 1) (by omega), slice_succ hstart,
      ← slice_append (show position + 1 ≤ position + body.width + 1 by omega) (by omega), hinner,
      ← slice_append (Nat.le_succ (position + body.width + 1)) (by omega), hlast, ihrest hrest]
    simp [Block.runs, Run.expand]

/-- The first run of a block that a program reads starts where the block does. -/
theorem get?_of_mem_runs (h : program.Reads position block) (hfirst : run ∈ block.runs.head?) :
    program.get? position = some run.instr := by
  cases block with
  | done => cases hfirst
  | op first rest =>
    cases hfirst
    exact h.1.get_eq 0 h.1.count_pos
  | loop body rest =>
    cases hfirst
    exact h.1

/-- The runs of a block that a program reads are proper. -/
theorem proper_of_reads (h : program.Reads position block) : ∀ run ∈ block.runs, run.Proper := by
  induction block generalizing position with
  | done => simp [Block.runs]
  | op run rest ih =>
    exact List.forall_mem_cons.mpr
      ⟨⟨h.1.count_pos, fun hside => absurd h.1.side_eq hside⟩, ih h.2⟩
  | loop body rest ihbody ihrest =>
    obtain ⟨-, hbody, -, hrest⟩ := h
    refine List.forall_mem_cons.mpr ⟨⟨Nat.one_pos, fun _ => rfl⟩, List.forall_mem_append.mpr
      ⟨ihbody hbody, List.forall_mem_cons.mpr ⟨⟨Nat.one_pos, fun _ => rfl⟩, ihrest hrest⟩⟩⟩

/-- The runs of a block that a program reads do not join. -/
theorem isChain_of_reads (h : program.Reads position block) : block.runs.IsChain Run.Apart := by
  induction block generalizing position with
  | done => exact List.isChain_nil
  | op run rest ih =>
    refine List.isChain_cons.mpr ⟨fun next hnext _ heq => ?_, ih h.2⟩
    have hbehind := get?_of_mem_runs h.2 hnext
    rw [heq] at hbehind
    exact h.1.behind hbehind
  | loop body rest ihbody ihrest =>
    obtain ⟨-, hbody, -, hrest⟩ := h
    -- brackets do not join with anything
    have hclosed : (⟨.loopEnd, 1⟩ :: rest.runs).IsChain Run.Apart :=
      List.isChain_cons.mpr ⟨fun next _ hside => absurd hside (by decide), ihrest hrest⟩
    have hinner : (body.runs ++ ⟨.loopEnd, 1⟩ :: rest.runs).IsChain Run.Apart := by
      refine List.isChain_append.mpr ⟨ihbody hbody, hclosed, fun last _ next hnext => ?_⟩
      obtain rfl : next = ⟨.loopEnd, 1⟩ := (Option.some.inj hnext).symm
      exact Run.apart_of_side (by decide)
    exact List.isChain_cons.mpr ⟨fun next _ hside => absurd hside (by decide), hinner⟩

end Program

namespace Stream

/-- The position at which the part of the program starts that the op at an index comes from. Behind
the last op it is the end of the program. -/
def boundary (stream : Stream) (program : Program) (index : Nat) : Nat :=
  (stream.position? index).getD program.size

/-- The part of the program that the op at an index comes from. -/
def part (stream : Stream) (program : Program) (index : Nat) : List Instr :=
  program.slice (stream.boundary program index) (stream.boundary program (index + 1))

/-- An op with a source position starts its part there. -/
theorem boundary_eq {stream : Stream} (program : Program) {index position : Nat}
    (h : stream.position? index = some position) : stream.boundary program index = position := by
  rw [boundary, h, Option.getD_some]

end Stream

section Sources

variable {options : CompileOptions} {program : Program} {stream : Stream} {index position : Nat}
  {block : Block Run} {op : Op}

/-- What the op at an index of a stream comes from. -/
inductive ComesFrom (options : CompileOptions) (program : Program) (stream : Stream) (index : Nat) :
    Op → Prop
  /-- An op comes from a maximal run. -/
  | run {run : Run} (hrun : program.MaximalRunAt (stream.boundary program index) run)
      (hnext : stream.boundary program (index + 1) = stream.boundary program index + run.count) :
      ComesFrom options program stream index run.op
  /-- An op replaces a loop. -/
  | replaced {body : Block Run} {replacement : Op}
      (hloop : program.Reads (stream.boundary program index) (.loop body .done))
      (hreplacement : (body.plain.reduce options).replacement? options = some replacement)
      (hnext : stream.boundary program (index + 1) =
        stream.boundary program index + (Block.loop body .done).width) :
      ComesFrom options program stream index replacement
  /-- A jump comes from the start of a loop that is kept. -/
  | opening {body : Block Run} {target : Nat}
      (hloop : program.Reads (stream.boundary program index) (.loop body .done))
      (hkept : (body.plain.reduce options).replacement? options = none)
      (hnext : stream.boundary program (index + 1) = stream.boundary program index + 1)
      (hend : stream.boundary program (target + 1) =
        stream.boundary program index + (Block.loop body .done).width) :
      ComesFrom options program stream index (.jumpIfZero target)
  /-- A jump comes from the end of a loop. -/
  | closing {target : Nat}
      (hclose : program.get? (stream.boundary program index) = some .loopEnd)
      (hnext : stream.boundary program (index + 1) = stream.boundary program index + 1) :
      ComesFrom options program stream index (.jumpIfNotZero target)

/-- The ops of a stream from an index on are those of a block of runs that stands at a position of
the program, and the next op has the part behind the block. -/
structure Lies (options : CompileOptions) (program : Program) (stream : Stream)
    (index position : Nat) (block : Block Run) : Prop where
  /-- The block stands at the position. -/
  reads : program.Reads position block
  /-- Its ops stand from the index on. -/
  laid : (block.plain.reduce options).LaidOut stream.ops index
  /-- Their source positions are those of the block. -/
  traced : block.Traced options stream.positions index position
  /-- The part of the next op is behind the block. -/
  stop : stream.boundary program (index + (block.plain.reduce options).size) =
    position + block.width

namespace Lies

variable {run : Run} {body rest : Block Run}

/-- The part of the first op starts at the position of the block. -/
theorem boundary_eq (h : Lies options program stream index position block) :
    stream.boundary program index = position := by
  obtain ⟨-, -, htraced, hstop⟩ := h
  cases block with
  | done => simpa [Block.plain, Block.reduce, Block.size, Block.width] using hstop
  | op run rest => exact Stream.boundary_eq program htraced.1
  | loop body rest =>
    rw [Block.Traced] at htraced
    split at htraced
    · exact Stream.boundary_eq program htraced.1
    · exact Stream.boundary_eq program htraced.1

/-- Behind the op of a run are the ops of the rest. -/
theorem run_first (h : Lies options program stream index position (.op run rest)) :
    stream.get? index = some run.op ∧
      Lies options program stream (index + 1) (position + run.count) rest := by
  obtain ⟨hreads, hlaid, htraced, hstop⟩ := h
  rw [Block.plain, Block.reduce, Block.size, Block.width] at hstop
  refine ⟨hlaid.1, hreads.2, hlaid.2, htraced.2, ?_⟩
  rw [Nat.add_assoc, Nat.add_comm 1, hstop, Nat.add_assoc]

/-- Behind an op that replaces a loop are the ops of the rest. -/
theorem replaced {replacement : Op}
    (h : Lies options program stream index position (.loop body rest))
    (hreplacement : (body.plain.reduce options).replacement? options = some replacement) :
    stream.get? index = some replacement ∧
      Lies options program stream (index + 1) (position + (Block.loop body .done).width) rest := by
  obtain ⟨⟨-, -, -, hbehind⟩, hlaid, htraced, hstop⟩ := h
  rw [Block.Traced] at htraced
  simp only [hreplacement] at htraced
  rw [Block.plain, Block.reduce_loop_of_some hreplacement] at hlaid hstop
  rw [Block.size, Block.width] at hstop
  refine ⟨hlaid.1, hbehind, hlaid.2, htraced.2, ?_⟩
  rw [Nat.add_assoc, Nat.add_comm 1, hstop, Block.width, Block.width]
  omega

/-- The ops of a loop that is kept are those of its body between two jumps. -/
theorem kept (h : Lies options program stream index position (.loop body rest))
    (hkept : (body.plain.reduce options).replacement? options = none) :
    ∃ stop, stop = index + 1 + (body.plain.reduce options).size ∧
      stream.get? index = some (.jumpIfZero stop) ∧
      Lies options program stream (index + 1) (position + 1) body ∧
      stream.get? stop = some (.jumpIfNotZero index) ∧
      Lies options program stream (stop + 1) (position + (Block.loop body .done).width) rest := by
  obtain ⟨⟨-, hbody, -, hbehind⟩, hlaid, htraced, hstop⟩ := h
  rw [Block.Traced] at htraced
  simp only [hkept] at htraced
  rw [Block.plain, Block.reduce_loop_of_none hkept] at hlaid hstop
  obtain ⟨hstart, hinner, hend, hlater⟩ := hlaid
  obtain ⟨-, htracedBody, hposition, htracedRest⟩ := htraced
  have hclose := Stream.boundary_eq program hposition
  refine ⟨index + (body.plain.reduce options).size + 1, Nat.add_right_comm _ _ _, hstart,
    ⟨hbody, hinner, htracedBody, ?_⟩, hend, hbehind, hlater, htracedRest, ?_⟩
  · rw [Nat.add_right_comm, hclose, Nat.add_right_comm]
  · have hindex : index + (body.plain.reduce options).size + 1 + 1 +
        (rest.plain.reduce options).size =
        index + (Block.loop (body.plain.reduce options) (rest.plain.reduce options)).size := by
      rw [Block.size]
      omega
    rw [hindex, hstop, Block.width, Block.width, Block.width]
    omega

end Lies

/-- The ops of a block of runs come from what the block stands for. -/
theorem comesFrom_of_lies (h : Lies options program stream index position block) {place : Nat}
    (hle : index ≤ place) (hlt : place < index + (block.plain.reduce options).size)
    (hop : stream.get? place = some op) : ComesFrom options program stream place op := by
  induction block generalizing index position with
  | done => exact absurd (Nat.lt_of_le_of_lt hle hlt) (Nat.lt_irrefl _)
  | op run rest ih =>
    obtain ⟨hfirst, hrest⟩ := h.run_first
    obtain rfl := h.boundary_eq
    rw [Block.plain, Block.reduce, Block.size] at hlt
    obtain rfl | hlt' := Nat.eq_or_lt_of_le hle
    · obtain rfl := Option.some.inj (hfirst.symm.trans hop)
      exact .run h.reads.1 hrest.boundary_eq
    · exact ih hrest hlt' (by omega)
  | loop body rest ihbody ihrest =>
    obtain rfl := h.boundary_eq
    have hloop : program.Reads (stream.boundary program index) (.loop body .done) :=
      ⟨h.reads.1, h.reads.2.1, h.reads.2.2.1, trivial⟩
    cases hreplacement : (body.plain.reduce options).replacement? options with
    | some replacement =>
      obtain ⟨hfirst, hrest⟩ := h.replaced hreplacement
      rw [Block.plain, Block.reduce_loop_of_some hreplacement, Block.size] at hlt
      obtain rfl | hlt' := Nat.eq_or_lt_of_le hle
      · obtain rfl := Option.some.inj (hfirst.symm.trans hop)
        exact .replaced hloop hreplacement hrest.boundary_eq
      · exact ihrest hrest hlt' (by omega)
    | none =>
      obtain ⟨stop, hstop, hfirst, hbody, hlast, hrest⟩ := h.kept hreplacement
      rw [Block.plain, Block.reduce_loop_of_none hreplacement, Block.size] at hlt
      -- the op is the jump at the start, one of the body, the jump at the end, or one behind it
      rcases Nat.eq_or_lt_of_le hle with rfl | hlt'
      · obtain rfl := Option.some.inj (hfirst.symm.trans hop)
        exact .opening hloop hreplacement hbody.boundary_eq hrest.boundary_eq
      rcases Nat.lt_trichotomy place stop with hin | rfl | hout
      · exact ihbody hbody hlt' (by omega)
      · obtain rfl := Option.some.inj (hlast.symm.trans hop)
        -- the part of the jump back starts behind the body
        have hclose := hstop ▸ hbody.stop
        refine .closing ?_ ?_
        · rw [hclose, Nat.add_right_comm]
          exact h.reads.2.2.1
        · rw [hrest.boundary_eq, hclose, Block.width, Block.width]
          omega
      · exact ihrest hrest hout (by omega)

/-- The body of a loop that is replaced is made of runs. -/
theorem items_eq_of_plain_eq {items : List Op} (h : block.plain = items.foldr .op .done) :
    items = block.runs.map Run.op := by
  induction block generalizing items with
  | done =>
    cases items with
    | nil => rfl
    | cons item items => cases h
  | op run rest ih =>
    cases items with
    | nil => cases h
    | cons item items =>
      rw [Block.plain, List.foldr_cons, Block.op.injEq] at h
      rw [Block.runs, List.map_cons, h.1, ih h.2]
  | loop body rest => cases items <;> cases h

/-- No run of a block that a program reads is longer than the program. -/
theorem count_le_of_reads (h : program.Reads position block) :
    ∀ run ∈ block.runs, run.count ≤ program.size := by
  induction block generalizing position with
  | done => simp [Block.runs]
  | op run rest ih => exact List.forall_mem_cons.mpr ⟨h.1.count_le, ih h.2⟩
  | loop body rest ihbody ihrest =>
    obtain ⟨hstart, hbody, -, hrest⟩ := h
    have hpos : 1 ≤ program.size := Nat.zero_lt_of_lt (Array.getElem?_eq_some_iff.mp hstart).1
    exact List.forall_mem_cons.mpr ⟨hpos, List.forall_mem_append.mpr
      ⟨ihbody hbody, List.forall_mem_cons.mpr ⟨hpos, ihrest hrest⟩⟩⟩

/-- A loop that a program reads is the slice of its body in brackets. -/
theorem slice_of_reads_loop {body : Block Run} (h : program.Reads position (.loop body .done)) :
    program.slice position (position + (Block.loop body .done).width) = Run.enclosed body.runs := by
  rw [Program.slice_of_reads h, Block.runs, List.flatMap_cons, List.flatMap_append]
  rfl

namespace ComesFrom

/-- The part of an op is not empty. -/
theorem boundary_lt (h : ComesFrom options program stream index op) :
    stream.boundary program index < stream.boundary program (index + 1) := by
  cases h with
  | run hrun hnext =>
    have hpos := hrun.count_pos
    omega
  | replaced _ _ hnext =>
    rw [Block.width] at hnext
    omega
  | opening _ _ hnext => omega
  | closing _ hnext => omega

/-- The op stands for its part of the program. -/
theorem covers (hsize : program.size < 2 ^ 63) (h : ComesFrom options program stream index op) :
    op.Covers options.strictZeroing (stream.part program index) := by
  rw [Stream.part]
  cases h with
  | run hrun hnext =>
    rw [hnext, hrun.slice_eq]
    exact .run hrun.side_eq hrun.count_pos
  | @replaced body _ hloop hreplacement hnext =>
    obtain ⟨items, hitems, hspecialize⟩ := Block.exists_items_of_replacement? hreplacement
    rw [items_eq_of_plain_eq hitems] at hspecialize
    rw [hnext, slice_of_reads_loop hloop]
    refine .idiom (.of_specialize (fun run hmem => ?_) (fun run hmem => ?_) hspecialize)
    · exact (Program.proper_of_reads hloop.2.1 run hmem).count_pos
    · exact Nat.lt_of_le_of_lt (count_le_of_reads hloop.2.1 run hmem) hsize
  | opening hloop _ hnext =>
    rw [hnext, Program.slice_succ hloop.1]
    exact .opening
  | closing hclose hnext =>
    rw [hnext, Program.slice_succ hclose]
    exact .closing

/-- A run is not continued behind the part of its op. -/
theorem get?_ne (h : ComesFrom options program stream index op) {instr : Instr}
    (hkind : Op.Kind.ofInstr? instr = some op.kind) :
    program.get? (stream.boundary program (index + 1)) ≠ some instr := by
  obtain ⟨hside, hplain⟩ := Op.Kind.plain_of_ofInstr? hkind
  cases h with
  | run hrun hnext =>
    rw [hnext, Op.Kind.eq_of_ofInstr? hkind (Run.ofInstr?_instr hrun.side_eq)]
    exact hrun.behind
  | replaced _ hreplacement =>
    rw [Block.isSpecialized_of_replacement? hreplacement] at hplain
    cases hplain
  | opening => cases hside
  | closing => cases hside

/-- Without specialization no loop is replaced. -/
theorem not_specialized (hoff : options.specializeLoops = false)
    (h : ComesFrom options program stream index op) : op.isSpecialized = false := by
  cases h with
  | @run run hrun =>
    exact (Op.Kind.plain_of_ofInstr? (Run.ofInstr?_instr hrun.side_eq)).2
  | replaced _ hreplacement => simp [Block.replacement?, hoff] at hreplacement
  | opening => rfl
  | closing => rfl

/-- With specialization no loop with a known effect is kept. -/
theorem not_idiom (hon : options.specializeLoops = true) (hsize : program.size < 2 ^ 63)
    {target : Nat} {runs : List Run}
    (h : ComesFrom options program stream index (.jumpIfZero target))
    (hslice : program.slice (stream.boundary program index) (stream.boundary program (target + 1)) =
      Run.enclosed runs) : ¬ Idiom options.strictZeroing op runs := by
  intro hidiom
  generalize hjump : Op.jumpIfZero target = jump at h
  -- only a loop that was kept has a jump, and this one would have been replaced
  cases h with
  | @opening body _ hloop hkept _ hend =>
    cases hjump
    rw [hend, slice_of_reads_loop hloop] at hslice
    have hbody := hloop.2.1
    obtain rfl := Run.enclosed_inj (Program.proper_of_reads hbody) (Program.isChain_of_reads hbody)
      hidiom.proper hidiom.isChain hslice
    have hspecialize := hidiom.specialize_eq fun run hmem =>
      Nat.lt_of_le_of_lt (count_le_of_reads hbody run hmem) hsize
    rw [Block.eq_foldr_of_runs hidiom.side_eq, Block.plain_foldr_op, Block.reduce_foldr_op,
      Block.replacement?, if_pos hon, Block.straight?_foldr, Option.bind_some, hspecialize] at hkept
    cases hkept
  | @run run hrun =>
    have hside := hrun.side_eq
    rw [← Run.side_op, ← hjump] at hside
    cases hside
  | replaced _ hreplacement =>
    have hside := Block.side_of_replacement? hreplacement
    rw [← hjump] at hside
    cases hside
  | closing => cases hjump

/-- An op that stands for no loop tells its part of the program. -/
theorem part_eq (hplain : op.isSpecialized = false)
    (h : ComesFrom options program stream index op) : stream.part program index = op.expand := by
  rw [Stream.part]
  cases h with
  | run hrun hnext => rw [hnext, hrun.slice_eq, Run.expand_op hrun.side_eq]
  | replaced _ hreplacement =>
    rw [Block.isSpecialized_of_replacement? hreplacement] at hplain
    cases hplain
  | opening hloop _ hnext => rw [hnext, Program.slice_succ hloop.1, Op.expand]
  | closing hclose hnext => rw [hnext, Program.slice_succ hclose, Op.expand]

end ComesFrom

/-- Up to any op, the ops that stand for no loop tell what is in the program up to its part. -/
theorem flatMap_expand_take (hstart : stream.boundary program 0 = 0)
    (hfrom : ∀ index op, stream.get? index = some op → ComesFrom options program stream index op)
    (hplain : ∀ op ∈ stream.ops, op.isSpecialized = false) (count : Nat)
    (hcount : count ≤ stream.size) :
    (stream.ops.toList.take count).flatMap Op.expand =
      program.slice 0 (stream.boundary program count) := by
  induction count with
  | zero => simp [hstart, Program.slice]
  | succ count ih =>
    have hop : stream.get? count = some stream.ops[count] := Array.getElem?_eq_getElem hcount
    have hcomes := hfrom count _ hop
    rw [← Program.slice_append (Nat.zero_le _) hcomes.boundary_lt.le, ← ih (by omega),
      ← Stream.part, hcomes.part_eq (hplain _ (Array.getElem_mem hcount)), List.take_add_one,
      List.flatMap_append]
    simp [Array.getElem?_eq_getElem hcount]

end Sources

/-- A stream cuts a program into the parts that its ops stand for. -/
structure Stream.TilesOf (options : CompileOptions) (program : Program) (stream : Stream) :
    Prop where
  /-- The source positions go up. -/
  ascending : stream.positions.toList.Pairwise (· < ·)
  /-- The first of them is the start of the program. -/
  start : 0 < program.size → stream.position? 0 = some 0
  /-- Each op stands for its part of the program. -/
  covers : ∀ index op, stream.get? index = some op →
    op.Covers options.strictZeroing (stream.part program index)
  /-- No other op does, except that a jump may have another target. -/
  determined : ∀ index op other, stream.get? index = some op →
    other.Covers options.strictZeroing (stream.part program index) →
    other = op ∨ other.isJump = true ∧ other.kind = op.kind
  /-- A run is not continued behind its part. -/
  maximal : ∀ index op instr, stream.get? index = some op →
    Op.Kind.ofInstr? instr = some op.kind →
    program.get? (stream.boundary program (index + 1)) ≠ some instr
  /-- If loops are not to be replaced, none is. -/
  unspecialized : options.specializeLoops = false → ∀ op ∈ stream.ops, op.isSpecialized = false
  /-- If loops are to be replaced, none that has a known effect is left: a jump and the one that it
  leads to do not stand around the body of such a loop. -/
  specialized : options.specializeLoops = true → ∀ index target op runs,
    stream.get? index = some (.jumpIfZero target) → Idiom options.strictZeroing op runs →
    program.slice (stream.boundary program index) (stream.boundary program (target + 1)) ≠
      Run.enclosed runs
  /-- Ops that stand for no loops tell the program. -/
  expand : (∀ op ∈ stream.ops, op.isSpecialized = false) →
    stream.ops.toList.flatMap Op.expand = program.instrs.toList

namespace Program

/-- A compiled stream tiles its program. -/
theorem compile_tiles {options : CompileOptions} {program : Program} {stream : Stream}
    (hsize : program.size < 2 ^ 63) (h : program.compile options = .ok stream) :
    stream.TilesOf options program := by
  obtain ⟨block, hspells, hops, hpositions⟩ := exists_spells_of_compile h
  have hreads := reads_zero_of_spells hspells
  have hlength : stream.size = (block.plain.reduce options).size := by
    rw [Stream.size, ← Array.length_toList, hops, Block.length_layout]
  have hend : stream.boundary program stream.size = program.size := by
    have hnone : stream.position? stream.size = none :=
      Array.getElem?_eq_none (by rw [stream.size_positions, Stream.size])
    rw [Stream.boundary, hnone, Option.getD_none]
  have hwidth : stream.boundary program (0 + (block.plain.reduce options).size) =
      0 + block.width := by
    rw [Nat.zero_add, ← hlength, hend, size_eq_width hspells, Nat.zero_add]
  have hlies : Lies options program stream 0 0 block := ⟨hreads, Block.laidOut_of_toList_eq hops,
    Block.traced_of_append [] [] (by simpa using hpositions), hwidth⟩
  have hstart := hlies.boundary_eq
  have hfrom : ∀ index op, stream.get? index = some op →
      ComesFrom options program stream index op := by
    intro index op hop
    refine comesFrom_of_lies hlies (Nat.zero_le _) ?_ hop
    rw [Nat.zero_add, ← hlength]
    exact (Array.getElem?_eq_some_iff.mp hop).1
  exact {
    ascending := by
      rw [hpositions]
      exact (ascends_origins_of_reads hreads).pairwise
    start := fun hpos => by
      cases hfirst : stream.position? 0 with
      | some position => rw [← Stream.boundary_eq program hfirst, hstart]
      | none =>
        rw [Stream.boundary, hfirst, Option.getD_none] at hstart
        exact absurd hstart hpos.ne'
    covers := fun index op hop => (hfrom index op hop).covers hsize
    determined := fun index op other hop hother => ((hfrom index op hop).covers hsize).unique hother
    maximal := fun index op instr hop => (hfrom index op hop).get?_ne
    unspecialized := fun hoff op hmem => by
      obtain ⟨index, hlt, rfl⟩ := Array.mem_iff_getElem.mp hmem
      exact (hfrom index _ (Array.getElem?_eq_getElem hlt)).not_specialized hoff
    specialized := fun hon index target op runs hop hidiom hslice =>
      (hfrom index _ hop).not_idiom hon hsize hslice hidiom
    expand := fun hplain => by
      have hall := flatMap_expand_take hstart hfrom hplain stream.size (Nat.le_refl _)
      rw [hend, List.take_of_length_le (by simp [Stream.size])] at hall
      rw [hall, slice, size, Array.extract_size] }

/-- A loop that moves a value is replaced, and one around it is kept. Its ops are at the start of
their parts. -/
theorem compile_tiles_transfer :
    ∃ stream, compile {} ⟨#[.increment, .increment, .loopStart, .write, .loopStart, .decrement,
        .right, .increment, .left, .loopEnd, .loopEnd]⟩ = .ok stream ∧
      stream.ops = #[.add 2, .jumpIfZero 4, .write 1, .transferAndZero 1, .jumpIfNotZero 1] ∧
      stream.positions = #[0, 2, 3, 4, 10] ∧
      stream.TilesOf {} ⟨#[.increment, .increment, .loopStart, .write, .loopStart, .decrement,
        .right, .increment, .left, .loopEnd, .loopEnd]⟩ := by
  have hcompile : compile {} ⟨#[.increment, .increment, .loopStart, .write, .loopStart,
      .decrement, .right, .increment, .left, .loopEnd, .loopEnd]⟩ =
      .ok ⟨#[.add 2, .jumpIfZero 4, .write 1, .transferAndZero 1, .jumpIfNotZero 1],
        #[0, 2, 3, 4, 10], ⟨0, 0, 1, 1⟩, rfl⟩ := rfl
  exact ⟨_, hcompile, rfl, rfl, compile_tiles (by decide) hcompile⟩

end Program

end TapeLang

import Mathlib.Data.List.Chain
import TapeLang.Interpreter.Scanning
import TapeLang.Proofs.Execution
import TapeLang.Proofs.Nesting

/-!
# Programs as blocks of runs

The runs of a program nest like its instructions. A block of runs that a program reads at some
position tells where each maximal run and each bracket stands, so that the partner of a bracket is
the one that the block gives it.

* `Program.reads_of_spells`: a program reads the block that its runs spell.
* `Program.closeOf_of_reads` and `Program.openOf_of_reads`: partners are found where the block has
  them.
* `Program.follows_instrs_of_reads`: the scanning interpreter follows the block of the single
  instructions.
-/

namespace TapeLang

namespace Run

/-- The side of a loop that the instruction of a run stands on. -/
def side (run : Run) : Option Bracket :=
  run.instr.side

/-- A run stands for as many instructions as it counts. -/
@[simp]
theorem length_expand (run : Run) : run.expand.length = run.count := by
  simp [expand]

/-- A run that a program can be cut into: it is not empty, and a bracket is not repeated. -/
structure Proper (run : Run) : Prop where
  /-- The instruction stands there at least once. -/
  count_pos : 0 < run.count
  /-- A bracket stands alone. -/
  bracket : run.side ≠ none → run.count = 1

/-- Two runs that are neighbours do not repeat the same instruction, unless it is a bracket. -/
def Apart (run next : Run) : Prop :=
  run.side = none → next.instr ≠ run.instr

/-- A bracket does not join the run in front of it. -/
theorem apart_of_side {run next : Run} (h : next.side ≠ none) : run.Apart next := by
  intro hside heq
  rw [side, heq] at h
  exact h hside

/-- Runs stay proper when an instruction is put in front of them. -/
theorem proper_of_mem_push {instr : Instr} {runs : List Run}
    (hruns : ∀ run ∈ runs, run.Proper) : ∀ run ∈ push instr runs, run.Proper := by
  intro run hmem
  have hsingle : Proper ⟨instr, 1⟩ := ⟨Nat.one_pos, fun _ => rfl⟩
  cases runs with
  | nil =>
    obtain rfl : run = ⟨instr, 1⟩ := by simpa [push] using hmem
    exact hsingle
  | cons first rest =>
    simp only [push] at hmem
    -- the instruction joins the first run, or begins a run of its own
    split at hmem
    · next h =>
      rcases List.mem_cons.mp hmem with rfl | hmem
      · exact ⟨Nat.succ_pos _, fun hside => absurd h.2 hside⟩
      · exact hruns run (List.mem_cons_of_mem _ hmem)
    · rcases List.mem_cons.mp hmem with rfl | hmem
      · exact hsingle
      · exact hruns run hmem

/-- Neighbours stay apart when an instruction is put in front of them. -/
theorem isChain_push {instr : Instr} {runs : List Run} (hruns : runs.IsChain Apart) :
    (push instr runs).IsChain Apart := by
  cases runs with
  | nil => exact List.isChain_singleton _
  | cons first rest =>
    simp only [push]
    split
    · next h =>
      rw [List.isChain_cons] at hruns ⊢
      refine ⟨fun next hnext hside => ?_, hruns.2⟩
      rw [← h.1] at hside ⊢
      exact hruns.1 next hnext hside
    · next h =>
      refine List.isChain_cons_cons.mpr ⟨fun hside heq => h ⟨heq, ?_⟩, hruns⟩
      exact hside

/-- An instruction that does not join the runs behind it is a run by itself. -/
theorem push_of_apart {instr : Instr} {runs : List Run}
    (h : (⟨instr, 1⟩ :: runs).IsChain Apart) : push instr runs = ⟨instr, 1⟩ :: runs := by
  cases runs with
  | nil => rfl
  | cons next rest =>
    have hnext := (List.isChain_cons_cons.mp h).1
    rw [push, if_neg]
    rintro ⟨heq, hside⟩
    exact hnext hside heq

/-- The instructions of a run, put in front of runs that they do not join, are cut into the run. -/
theorem foldr_push_expand {run : Run} {runs : List Run} (hproper : run.Proper)
    (hchain : (run :: runs).IsChain Apart) : run.expand.foldr push runs = run :: runs := by
  obtain ⟨instr, count⟩ := run
  obtain ⟨count, rfl⟩ := Nat.exists_eq_succ_of_ne_zero hproper.count_pos.ne'
  -- whether runs join is up to their instructions
  have hfirst : (⟨instr, 1⟩ :: runs).IsChain Apart := by
    rw [List.isChain_cons] at hchain ⊢
    exact hchain
  induction count with
  | zero => exact push_of_apart hfirst
  | succ count ih =>
    have hside : instr.side = none := by
      by_contra hside
      have hcount := hproper.bracket hside
      simp at hcount
    have hrest := ih ⟨Nat.succ_pos _, fun hbracket => absurd hside hbracket⟩ (by
      rw [List.isChain_cons] at hchain ⊢
      exact hchain)
    rw [expand, List.replicate_succ, List.foldr_cons]
    show push instr ((expand ⟨instr, count + 1⟩).foldr push runs) = _
    rw [hrest, push, if_pos ⟨rfl, hside⟩]

/-- Proper runs of which no two neighbours join are the runs of what they stand for. -/
theorem foldr_push_flatMap {runs : List Run} (hproper : ∀ run ∈ runs, run.Proper)
    (hchain : runs.IsChain Apart) : (runs.flatMap expand).foldr push [] = runs := by
  induction runs with
  | nil => rfl
  | cons run runs ih =>
    obtain ⟨hrun, hruns⟩ := List.forall_mem_cons.mp hproper
    rw [List.flatMap_cons, List.foldr_append, ih hruns (List.isChain_of_isChain_cons hchain)]
    exact foldr_push_expand hrun hchain

end Run

namespace Program

/-- The runs of a program are proper. -/
theorem proper_of_mem_runs {program : Program} : ∀ run ∈ program.runs, run.Proper := by
  unfold runs
  induction program.instrs.toList with
  | nil => simp
  | cons instr instrs ih => exact Run.proper_of_mem_push ih

/-- Neighbouring runs of a program are apart. -/
theorem isChain_runs (program : Program) : program.runs.IsChain Run.Apart := by
  unfold runs
  induction program.instrs.toList with
  | nil => exact List.isChain_nil
  | cons instr instrs ih => exact Run.isChain_push ih

/-- There is only one way to cut a program into proper runs of which no two neighbours join. -/
theorem runs_eq {program : Program} {runs : List Run} (hproper : ∀ run ∈ runs, run.Proper)
    (hchain : runs.IsChain Run.Apart)
    (hexpand : runs.flatMap Run.expand = program.instrs.toList) : program.runs = runs := by
  rw [Program.runs, ← hexpand, Run.foldr_push_flatMap hproper hchain]

/-- The loops that are open after a program can be counted on its runs. -/
theorem openAfter_runs (program : Program) (opened : Nat) :
    Bracket.openAfter Run.side opened program.runs =
      Bracket.openAfter Instr.side opened program.instrs.toList := by
  rw [← expand_runs]
  have hproper := program.proper_of_mem_runs
  generalize program.runs = runs at hproper
  induction runs generalizing opened with
  | nil => rfl
  | cons run runs ih =>
    have hrun := hproper run List.mem_cons_self
    have hrest := fun opened => ih opened fun run hmem => hproper run (List.mem_cons_of_mem _ hmem)
    rw [List.flatMap_cons, Bracket.openAfter_append]
    -- a run of brackets is one bracket, and any other run counts for nothing
    cases hside : run.side with
    | none =>
      have hexpand : ∀ instr ∈ run.expand, instr.side = none := by
        intro instr hmem
        rw [List.eq_of_mem_replicate hmem]
        exact hside
      rw [Bracket.openAfter_of_side_eq_none hexpand]
      simp only [Bracket.openAfter, hside, Option.bind_some]
      exact hrest opened
    | some bracket =>
      have hcount := hrun.bracket (by simp [hside])
      have hinstr : run.instr.side = some bracket := hside
      simp only [Run.expand, hcount, List.replicate_one, Bracket.openAfter, hside, hinstr]
      cases bracket with
      | opening => exact hrest (opened + 1)
      | closing =>
        cases opened with
        | zero => rfl
        | succ opened => exact hrest opened

/-- A run stands at a position of a program, and it cannot be made longer on either side. -/
structure MaximalRunAt (program : Program) (position : Nat) (run : Run) : Prop where
  /-- The instruction is no bracket. -/
  side_eq : run.side = none
  /-- The run is not empty. -/
  count_pos : 0 < run.count
  /-- The instruction stands there as often as the run says. -/
  get_eq : ∀ k < run.count, program.get? (position + k) = some run.instr
  /-- Another instruction, or none, stands before the run. -/
  before : ∀ previous, previous + 1 = position → program.get? previous ≠ some run.instr
  /-- Another instruction, or none, stands behind the run. -/
  behind : program.get? (position + run.count) ≠ some run.instr

/-- A run is no longer than the program. -/
theorem MaximalRunAt.count_le {program : Program} {position : Nat} {run : Run}
    (h : program.MaximalRunAt position run) : run.count ≤ program.size := by
  have hpos := h.count_pos
  have hlast := h.get_eq (run.count - 1) (by omega)
  have hlt := (Array.getElem?_eq_some_iff.mp hlast).1
  rw [size]
  omega

/-- The instructions of a program from the start of one of its runs on. -/
theorem get?_of_runs {program : Program} (before after : List Run)
    (hruns : program.runs = before ++ after) (k : Nat) :
    program.get? ((before.flatMap Run.expand).length + k) = (after.flatMap Run.expand)[k]? := by
  rw [get?, ← Array.getElem?_toList, ← expand_runs, hruns, List.flatMap_append,
    List.getElem?_append_right (Nat.le_add_right _ _), Nat.add_sub_cancel_left]

/-- A bracket of a program stands at a position if a run of it does. -/
theorem get?_bracket_of_runs {program : Program} (before : List Run) {after : List Run} {run : Run}
    (hruns : program.runs = before ++ run :: after) (hside : run.side ≠ none) :
    program.get? (before.flatMap Run.expand).length = some run.instr := by
  have hcount := (program.proper_of_mem_runs run (by simp [hruns])).bracket hside
  have hget := get?_of_runs before (run :: after) hruns 0
  simpa [Run.expand, hcount] using hget

/-- The runs of a program are maximal. -/
theorem maximalRunAt_of_runs {program : Program} {before after : List Run} {run : Run}
    (hruns : program.runs = before ++ run :: after) (hside : run.side = none) :
    program.MaximalRunAt (before.flatMap Run.expand).length run := by
  have hproper := program.proper_of_mem_runs
  have hchain := program.isChain_runs
  rw [hruns] at hproper hchain
  obtain ⟨-, hchain, hleft⟩ := List.isChain_append.mp hchain
  refine ⟨hside, (hproper run (by simp)).count_pos, ?_, ?_, ?_⟩
  · intro k hk
    rw [get?_of_runs before (run :: after) hruns]
    simp [Run.expand, List.getElem?_append, hk]
  · -- in front of the run is the last instruction of the run before, which is another one
    intro previous hprevious
    obtain rfl | ⟨init, last, rfl⟩ := List.eq_nil_or_concat' before
    · simp at hprevious
    · have hlast := hleft last (by simp) run (by simp)
      have hcount := (hproper last (by simp)).count_pos
      have hget := get?_of_runs init (last :: run :: after) (by simpa using hruns)
        (last.count - 1)
      have hposition : previous = (init.flatMap Run.expand).length + (last.count - 1) := by
        rw [List.flatMap_append, List.length_append, List.flatMap_singleton,
          Run.length_expand] at hprevious
        omega
      have hlt : last.count - 1 < last.count := by omega
      rw [hposition, hget]
      simp only [Run.expand, List.flatMap_cons, List.getElem?_append, List.length_replicate, hlt,
        if_true, List.getElem?_replicate, ne_eq, Option.some.injEq]
      intro heq
      refine hlast ?_ heq.symm
      rw [Run.side, heq]
      exact hside
  · -- behind it is the first instruction of the next run, if there is one
    have hget := get?_of_runs before (run :: after) hruns run.count
    rw [hget]
    cases after with
    | nil => simp [Run.expand]
    | cons next after =>
      have hnext := (List.isChain_cons_cons.mp hchain).1 hside
      have hcount := (hproper next (by simp)).count_pos
      simp only [Run.expand, List.flatMap_cons, List.getElem?_append, List.length_replicate,
        Nat.lt_irrefl, if_false, Nat.sub_self, hcount, if_true, List.getElem?_replicate, ne_eq,
        Option.some.injEq]
      exact hnext

end Program

namespace Block

/-- The number of instructions that a block of runs stands for. -/
def width : Block Run → Nat
  | done => 0
  | op run rest => run.count + rest.width
  | loop body rest => body.width + rest.width + 2

/-- The single instructions of a block of runs. -/
def instrs : Block Run → Block Instr
  | done => .done
  | op run rest => run.expand.foldr .op rest.instrs
  | loop body rest => .loop body.instrs rest.instrs

/-- Items in front of a block make it longer by their number. -/
theorem size_foldr_op {α : Type} (items : List α) (rest : Block α) :
    (items.foldr .op rest).size = items.length + rest.size := by
  induction items with
  | nil => simp
  | cons item items ih =>
    rw [List.foldr_cons, size, ih, List.length_cons]
    omega

/-- A block of runs has as many items as it stands for instructions. -/
@[simp]
theorem size_instrs (block : Block Run) : block.instrs.size = block.width := by
  induction block with
  | done => rfl
  | op run rest ih => rw [instrs, size_foldr_op, ih, Run.length_expand, width]
  | loop body rest ihbody ihrest => rw [instrs, size, ihbody, ihrest, width]

/-- Items that spell a block of runs stand for as many instructions as the block. -/
theorem Spells.length_expand {runs : List Run} {block : Block Run}
    (h : Spells Run.side runs block) (hproper : ∀ run ∈ runs, run.Proper) :
    (runs.flatMap Run.expand).length = block.width := by
  induction h with
  | done => rfl
  | op _ _ ih =>
    rw [List.flatMap_cons, List.length_append, Run.length_expand,
      ih fun run hmem => hproper run (List.mem_cons_of_mem _ hmem), width]
  | @loop opening closing _ _ _ _ hopening hclosing _ _ ihbody ihrest =>
    have hfirst := (hproper opening (by simp)).bracket (by simp [hopening])
    have hlast := (hproper closing (by simp)).bracket (by simp [hclosing])
    rw [List.flatMap_cons, List.flatMap_append, List.flatMap_cons, List.length_append,
      List.length_append, List.length_append, Run.length_expand, Run.length_expand, hfirst, hlast,
      ihbody fun run hmem => hproper run (by simp [hmem]),
      ihrest fun run hmem => hproper run (by simp [hmem]), width]
    omega

end Block

/-- The configurations in which the scanning interpreter carries out an instruction, in order. -/
def Scanning.trailFrom (program : Program) (fuel : Nat) (config : Config) : List Config :=
  trail (fun config => program.instrs[config.position]?) (step program) fuel config

/-- The scanning interpreter acts on an instruction that is no bracket. -/
theorem Scanning.step_of_side_eq_none {program : Program} {instr : Instr} {config : Config}
    (hside : instr.side = none) : step program instr config = config.act instr.act := by
  cases instr <;> first | rfl | cases hside

namespace Program

/-- A program reads, from a position on, as a block of maximal runs. -/
def Reads (program : Program) : Nat → Block Run → Prop
  | _, .done => True
  | position, .op run rest =>
    program.MaximalRunAt position run ∧ program.Reads (position + run.count) rest
  | position, .loop body rest =>
    program.get? position = some .loopStart ∧ program.Reads (position + 1) body ∧
      program.get? (position + body.width + 1) = some .loopEnd ∧
      program.Reads (position + body.width + 2) rest

/-- A part of the runs of a program that spells a block is read as this block. -/
theorem reads_of_spells {program : Program} (before after : List Run) {runs : List Run}
    {block : Block Run}
    (h : Block.Spells Run.side runs block) (hruns : program.runs = before ++ runs ++ after) :
    program.Reads (before.flatMap Run.expand).length block := by
  induction h generalizing before after with
  | done => trivial
  | @op run items _ hside _ ih =>
    refine ⟨maximalRunAt_of_runs (by simpa using hruns) hside, ?_⟩
    have hrest := ih (before ++ [run]) after (by simpa using hruns)
    simpa [List.flatMap_append] using hrest
  | @loop opening closing inner items body _ hopening hclosing hbody _ ihbody ihrest =>
    have hproper := program.proper_of_mem_runs
    rw [hruns] at hproper
    have hfirst := (hproper opening (by simp)).bracket (by simp [hopening])
    have hlast := (hproper closing (by simp)).bracket (by simp [hclosing])
    have hwidth := hbody.length_expand fun run hmem => hproper run (by simp [hmem])
    -- the positions of the body, of the loop end and of what follows, from the lengths of the runs
    have hbefore : ((before ++ [opening]).flatMap Run.expand).length =
        (before.flatMap Run.expand).length + 1 := by
      rw [List.flatMap_append, List.length_append, List.flatMap_singleton, Run.length_expand,
        hfirst]
    have hinner : ((before ++ opening :: inner).flatMap Run.expand).length =
        (before.flatMap Run.expand).length + body.width + 1 := by
      rw [List.flatMap_append, List.length_append, List.flatMap_cons, List.length_append,
        Run.length_expand, hfirst, hwidth]
      omega
    have hclosed : ((before ++ opening :: inner ++ [closing]).flatMap Run.expand).length =
        (before.flatMap Run.expand).length + body.width + 2 := by
      rw [List.flatMap_append, List.length_append, hinner, List.flatMap_singleton,
        Run.length_expand, hlast]
    refine ⟨?_, ?_, ?_, ?_⟩
    · have hget := get?_bracket_of_runs before (by simpa using hruns) (by simp [hopening])
      rw [hget, Instr.eq_loopStart_of_side hopening]
    · rw [← hbefore]
      exact ihbody _ (closing :: items ++ after) (by simpa using hruns)
    · have hget := get?_bracket_of_runs (before ++ opening :: inner) (by simpa using hruns)
        (by simp [hclosing])
      rw [← hinner, hget, Instr.eq_loopEnd_of_side hclosing]
    · rw [← hclosed]
      exact ihrest _ after (by simpa using hruns)

/-- A program reads the block that its runs spell. -/
theorem reads_zero_of_spells {program : Program} {block : Block Run}
    (h : Block.Spells Run.side program.runs block) :
    program.Reads 0 block :=
  reads_of_spells [] [] h (by simp)

/-- A program is as long as the block that its runs spell. -/
theorem size_eq_width {program : Program} {block : Block Run}
    (h : Block.Spells Run.side program.runs block) : program.size = block.width := by
  rw [← h.length_expand program.proper_of_mem_runs, expand_runs, Array.length_toList, size]

/-- A forward scan that meets no bracket goes on. -/
theorem closeFrom_of_side_eq_none {program : Program} {depth position : Nat} {instr : Instr}
    (hget : program.get? position = some instr) (hside : instr.side = none) :
    Bracket.closeFrom Instr.side program.instrs depth position =
      Bracket.closeFrom Instr.side program.instrs depth (position + 1) := by
  obtain ⟨hlt, hinstr⟩ := Array.getElem?_eq_some_iff.mp hget
  rw [Bracket.closeFrom, dif_pos hlt, hinstr, hside]

/-- A forward scan goes past a block that is read at its position: as many loops end in the block
as start. -/
theorem closeFrom_of_reads {program : Program} {position : Nat} {block : Block Run}
    (hreads : program.Reads position block) (depth : Nat) :
    Bracket.closeFrom Instr.side program.instrs depth position =
      Bracket.closeFrom Instr.side program.instrs depth (position + block.width) := by
  induction block generalizing position depth with
  | done => rfl
  | op run rest ih =>
    -- the search passes the instructions of a run one by one
    have hskip : ∀ k ≤ run.count, Bracket.closeFrom Instr.side program.instrs depth position =
        Bracket.closeFrom Instr.side program.instrs depth (position + k) := by
      intro k hk
      induction k with
      | zero => rfl
      | succ k ihk =>
        rw [ihk (by omega), closeFrom_of_side_eq_none (hreads.1.get_eq k (by omega))
          hreads.1.side_eq, Nat.add_assoc]
    rw [hskip run.count (Nat.le_refl _), ih hreads.2, Block.width, Nat.add_assoc]
  | loop body rest ihbody ihrest =>
    obtain ⟨hstart, hbody, hend, hrest⟩ := hreads
    obtain ⟨hlt, hinstr⟩ := Array.getElem?_eq_some_iff.mp hstart
    obtain ⟨hlt', hinstr'⟩ := Array.getElem?_eq_some_iff.mp hend
    -- it goes through a loop one level deeper, and is back at the old depth behind the loop
    have henter : Bracket.closeFrom Instr.side program.instrs depth position =
        Bracket.closeFrom Instr.side program.instrs (depth + 1) (position + 1) := by
      rw [Bracket.closeFrom, dif_pos hlt, hinstr]
      rfl
    have hleave : Bracket.closeFrom Instr.side program.instrs (depth + 1)
          (position + body.width + 1) =
        Bracket.closeFrom Instr.side program.instrs depth (position + body.width + 2) := by
      rw [Bracket.closeFrom, dif_pos hlt', hinstr']
      rfl
    rw [henter, ihbody hbody, Nat.add_right_comm, hleave, ihrest hrest, Block.width]
    congr 1
    omega

/-- A backward scan goes past a block that is read before its position. -/
theorem openBefore_of_reads {program : Program} {position : Nat} {block : Block Run}
    (hreads : program.Reads position block) (depth : Nat) :
    Bracket.openBefore Instr.side program.instrs depth (position + block.width) =
      Bracket.openBefore Instr.side program.instrs depth position := by
  induction block generalizing position depth with
  | done => rfl
  | op run rest ih =>
    have hskip : ∀ k ≤ run.count,
        Bracket.openBefore Instr.side program.instrs depth (position + k) =
        Bracket.openBefore Instr.side program.instrs depth position := by
      intro k hk
      induction k with
      | zero => rfl
      | succ k ihk =>
        have hside : program.instrs[position + k]?.bind Instr.side = none :=
          (congrArg (·.bind Instr.side) (hreads.1.get_eq k (by omega))).trans hreads.1.side_eq
        rw [← Nat.add_assoc, Bracket.openBefore_of_none hside, ihk (by omega)]
    rw [Block.width, ← Nat.add_assoc, ih hreads.2, hskip run.count (Nat.le_refl _)]
  | loop body rest ihbody ihrest =>
    obtain ⟨hstart, hbody, hend, hrest⟩ := hreads
    -- backwards a loop is entered at its end and left at its start
    have hopening : program.instrs[position]?.bind Instr.side = some .opening :=
      congrArg (·.bind Instr.side) hstart
    have hclosing : program.instrs[position + body.width + 1]?.bind Instr.side = some .closing :=
      congrArg (·.bind Instr.side) hend
    have hwidth : position + (Block.loop body rest).width =
        position + body.width + 1 + 1 + rest.width := by
      rw [Block.width]
      omega
    rw [hwidth, ihrest hrest, Bracket.openBefore_of_closing hclosing, Nat.add_right_comm,
      ihbody hbody, Bracket.openBefore_of_opening hopening]

/-- The partner of a loop start is the loop end behind the body of the loop. -/
theorem closeOf_of_reads {program : Program} {position : Nat} {body rest : Block Run}
    (hreads : program.Reads position (.loop body rest)) :
    program.closeOf position = some (position + body.width + 1) := by
  obtain ⟨-, hbody, hend, -⟩ := hreads
  obtain ⟨hlt, hinstr⟩ := Array.getElem?_eq_some_iff.mp hend
  rw [closeOf, Bracket.matchingClose, closeFrom_of_reads hbody, Nat.add_right_comm,
    Bracket.closeFrom, dif_pos hlt, hinstr]
  rfl

/-- The partner of a loop end is the loop start in front of the body of the loop. -/
theorem openOf_of_reads {program : Program} {position : Nat} {body rest : Block Run}
    (hreads : program.Reads position (.loop body rest)) :
    program.openOf (position + body.width + 1) = some position := by
  obtain ⟨hstart, hbody, -, -⟩ := hreads
  have hopening : program.instrs[position]?.bind Instr.side = some .opening :=
    congrArg (·.bind Instr.side) hstart
  rw [openOf, Bracket.matchingOpen, Nat.add_right_comm, openBefore_of_reads hbody,
    Bracket.openBefore_zero_of_opening hopening]

/-- The step of the scanning interpreter at a position of a program. -/
def scanningStep (program : Program) : Config → Option (Outcome Config) :=
  stepOf (fun config => program.instrs[config.position]?) (Scanning.step program)

/-- The step at a position where no bracket stands. -/
theorem scanningStep_of_side_eq_none {program : Program} {position : Nat} {instr : Instr}
    (hget : program.get? position = some instr) (hside : instr.side = none) (machine : Machine) :
    program.scanningStep ⟨position, machine⟩ =
      some (Config.act ⟨position, machine⟩ instr.act) := by
  have hget' : program.instrs[position]? = some instr := hget
  rw [scanningStep, stepOf]
  simp only [hget', Option.map_some, Scanning.step_of_side_eq_none hside]

/-- The scanning interpreter follows the instructions of the block as which a program is read. -/
theorem follows_instrs_of_reads {program : Program} {position : Nat} {block : Block Run}
    (hreads : program.Reads position block) :
    block.instrs.Follows program.scanningStep Instr.act position := by
  induction block generalizing position with
  | done => trivial
  | op run rest ih =>
    -- from the last instruction of the run to the first, as they are put in front of the rest
    have hfollows : ∀ k ≤ run.count, ((List.replicate k run.instr).foldr .op rest.instrs).Follows
        program.scanningStep Instr.act (position + (run.count - k)) := by
      intro k hk
      induction k with
      | zero => simpa using ih hreads.2
      | succ k ihk =>
        refine ⟨fun machine => ?_, ?_⟩
        · exact scanningStep_of_side_eq_none (hreads.1.get_eq _ (by omega)) hreads.1.side_eq machine
        · have hnext : position + (run.count - (k + 1)) + 1 = position + (run.count - k) := by omega
          rw [hnext]
          exact ihk (by omega)
    simpa [Block.instrs, Run.expand] using hfollows run.count (Nat.le_refl _)
  | loop body rest ihbody ihrest =>
    have hclose := closeOf_of_reads hreads
    have hopen := openOf_of_reads hreads
    obtain ⟨hstart, hbody, hend, hrest⟩ := hreads
    have hstart' : program.instrs[position]? = some .loopStart := hstart
    have hend' : program.instrs[position + body.width + 1]? = some .loopEnd := hend
    refine ⟨fun tested machine htest => ?_, ihbody hbody, by simpa using ihrest hrest⟩
    rw [Block.size_instrs]
    -- each bracket tests the cell and goes behind the other one or on
    rcases htest with rfl | rfl
    · rw [scanningStep, stepOf]
      simp only [hstart', Option.map_some, Scanning.step, Config.atZero, hclose, Config.goTo,
        Config.advance, decide_eq_true_eq]
      split <;> rfl
    · rw [Block.size_instrs, scanningStep, stepOf]
      simp only [hend', Option.map_some, Scanning.step, Config.atZero, hopen, Config.goTo,
        Config.advance, decide_eq_true_eq]
      split <;> rfl

end Program

end TapeLang

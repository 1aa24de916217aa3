import TapeLang.Native.Block
import TapeLang.Native.CodeBuffer

/-!
# The layout of generated code

Generated code as lines: instructions, and branches that name the offset they lead to. Where a line
stands decides the displacement of its branch, so a list of lines that is laid out from some
offset on stands for a list of instructions.

* `X86.callLines`: the lines of the code for a block, from the prologue to the fault.
* `X86.laid_of_insnsFrom`: each line of a listing stands at its offset.
-/

namespace TapeLang

/-- A computation in two parts succeeds if both of its parts do. -/
theorem bind_eq_ok {ε α β : Type} {first : Except ε α} {next : α → Except ε β} {result : β} :
    (first >>= next) = .ok result ↔ ∃ value, first = .ok value ∧ next value = .ok result := by
  constructor
  · intro h
    cases first with
    | error error => cases h
    | ok value => exact ⟨value, rfl, h⟩
  · rintro ⟨value, rfl, hnext⟩
    exact hnext

/-- A generation in two parts succeeds if both of its parts do. -/
theorem run_bind_eq_ok {σ ε α β : Type} {first : StateT σ (Except ε) α}
    {next : α → StateT σ (Except ε) β} {result : β} {state later : σ} :
    (first >>= next).run state = .ok (result, later) ↔
      ∃ value mid, first.run state = .ok (value, mid) ∧
        (next value).run mid = .ok (result, later) := by
  rw [StateT.run_bind, bind_eq_ok]
  exact Prod.exists

/-- A program in the state monad that begins by reading the state goes on with the state. -/
theorem run_get_bind {σ ε β : Type} {next : σ → StateT σ (Except ε) β} {state : σ} :
    (get >>= next).run state = (next state).run state := rfl

namespace X86

/-- A line of code. -/
inductive Line where
  /-- An instruction that is not a branch. -/
  | insn (insn : Insn)
  /-- A branch to an offset. -/
  | branch (condition : Branch) (target : Nat)

/-- The number of bytes of a line. -/
def Line.length : Line → Nat
  | insn own => own.encode.length
  | branch condition _ => condition.opcode.length + 4

/-- The instruction that a line stands for at an offset. -/
def Line.insnAt (offset : Nat) : Line → Except CodegenError Insn
  | insn own => .ok own
  | branch condition target =>
    (branchDisplacement (offset + condition.opcode.length + 4) target).map (.branch condition)

/-- The number of bytes of some lines. -/
def width : List Line → Nat
  | [] => 0
  | line :: lines => line.length + width lines

/-- The instructions that lines stand for when they are laid out from an offset on. -/
def insnsFrom : Nat → List Line → Except CodegenError (List Insn)
  | _, [] => .ok []
  | offset, line :: lines => do
    let insn ← line.insnAt offset
    let insns ← insnsFrom (offset + line.length) lines
    return insn :: insns

/-- The branch fields of lines that are laid out from an offset on: where each of them is, and where
its branch leads. -/
def fieldsFrom : Nat → List Line → List (Nat × Nat)
  | _, [] => []
  | offset, .insn own :: lines => fieldsFrom (offset + own.encode.length) lines
  | offset, .branch condition target :: lines =>
    (offset + condition.opcode.length, target) ::
      fieldsFrom (offset + condition.opcode.length + 4) lines

/-- The offsets that the code of an op may leave for. -/
structure Exits where
  /-- Where the code gives back the index of the current cell. -/
  exit : Nat
  /-- Where it gives back the index of an impossible transfer. -/
  fault : Nat

/-- Adds a displacement to an index register and leaves unless the result is on the tape. -/
def shiftLines (register : IndexRegister) (delta : Int) (outside : Nat) : List Line :=
  [.insn (.index (if 0 ≤ delta then .add else .sub) register (UInt32.ofNat delta.natAbs)),
    .insn (.index .cmp register (UInt32.ofNat tapeSize)), .branch .jae outside]

/-- Makes a system call on the current cell. -/
def syscallLines (call : SystemCall) (descriptor : Int) : List Line :=
  (cellSyscall call.number (UInt32.ofInt descriptor)).map .insn

/-- Lines that are skipped if the current cell is zero. The test takes eleven bytes. -/
def unlessZero (offset : Nat) (inner : List Line) : List Line :=
  .insn .cmpCellZero :: .branch .jz (offset + 11 + width inner) :: inner

end X86

open X86

/-- The lines of an op that is laid out from an offset on. -/
def Op.lines (descriptors : Descriptors) (exits : Exits) (offset : Nat) : Op → List Line
  | .forward count => shiftLines .rbx count exits.exit
  | .backward count => shiftLines .rbx (-count) exits.exit
  | .add count =>
    if UInt8.ofNat count = 0 then [] else [.insn (.addCell (UInt8.ofNat count))]
  | .sub count =>
    if UInt8.ofNat count = 0 then [] else [.insn (.subCell (UInt8.ofNat count))]
  | .write count => (List.replicate count (syscallLines .write descriptors.output)).flatten
  | .read count => (List.replicate count (syscallLines .read descriptors.input)).flatten
  | .setZero => [.insn .setCellZero]
  | .scanUntilZero step =>
    unlessZero offset (shiftLines .rbx step exits.exit ++ [.branch .jmp offset])
  | .transferAndZero delta =>
    unlessZero offset (.insn .movRcxRbx :: (shiftLines .rcx delta exits.fault ++
      [.insn .movAlCell, .insn .addTargetAl, .insn .setCellZero]))
  | .jumpIfZero _ | .jumpIfNotZero _ => []

/-- The descriptors are signed 32-bit numbers. -/
structure Descriptors.Fit (descriptors : Descriptors) : Prop where
  input : -0x80000000 ≤ descriptors.input ∧ descriptors.input < 0x80000000
  output : -0x80000000 ≤ descriptors.output ∧ descriptors.output < 0x80000000

/-- The displacement of the op fits a signed 32-bit operand. -/
def Op.InReach : Op → Prop
  | .forward count | .backward count => count < 0x80000000
  | .scanUntilZero delta | .transferAndZero delta => delta.natAbs < 0x80000000
  | _ => True

/-- The lines of a loop with the given lines of its body. -/
def X86.loopLines (offset : Nat) (body : List Line) : List Line :=
  unlessZero offset (body ++ [.insn .cmpCellZero, .branch .jnz (offset + 11)])

/-- The lines of a block that is laid out from an offset on. -/
def Block.lines (descriptors : Descriptors) (exits : Exits) : Nat → Block Op → List Line
  | _, .done => []
  | offset, .op item rest =>
    item.lines descriptors exits offset ++
      rest.lines descriptors exits (offset + width (item.lines descriptors exits offset))
  | offset, .loop body rest =>
    loopLines offset (body.lines descriptors exits (offset + 11)) ++
      rest.lines descriptors exits
        (offset + width (loopLines offset (body.lines descriptors exits (offset + 11))))

namespace X86

/-- The exits behind the code of a block, which begins after the prologue. -/
def exitsOf (descriptors : Descriptors) (block : Block Op) : Exits :=
  let exit := 8 + width (block.lines descriptors ⟨0, 0⟩ 8)
  ⟨exit, exit + 7⟩

/-- The lines of the code for a block. -/
def callLines (descriptors : Descriptors) (block : Block Op) : List Line :=
  let exits := exitsOf descriptors block
  prologue.map .insn ++ block.lines descriptors exits 8 ++ epilogue.map .insn ++
    [.insn .movRbxRcx, .branch .jmp exits.exit]

/-- The instructions of the code for a block. -/
def listing (descriptors : Descriptors) (block : Block Op) : Except CodegenError (List Insn) :=
  insnsFrom 0 (callLines descriptors block)

/-- An instruction of a listing starts at an offset. -/
def Starts (listing : List Insn) (offset : Nat) (insn : Insn) : Prop :=
  ∃ before after, listing = before ++ insn :: after ∧ (assemble before).length = offset

/-- Lines stand in a listing from an offset on. -/
def Laid (listing : List Insn) : Nat → List Line → Prop
  | _, [] => True
  | offset, line :: lines =>
    (∃ insn, line.insnAt offset = .ok insn ∧ Starts listing offset insn) ∧
      Laid listing (offset + line.length) lines

variable {offset : Nat} {lines more : List Line} {insns : List Insn} {listing : List Insn}

@[simp]
theorem width_append (lines more : List Line) :
    width (lines ++ more) = width lines + width more := by
  induction lines with
  | nil => exact (Nat.zero_add _).symm
  | cons line lines ih => rw [List.cons_append, width, width, ih, Nat.add_assoc]

/-- Lines that follow one another have their fields one after another. -/
theorem fieldsFrom_append (offset : Nat) (lines more : List Line) :
    fieldsFrom offset (lines ++ more) =
      fieldsFrom offset lines ++ fieldsFrom (offset + width lines) more := by
  induction lines generalizing offset with
  | nil => rfl
  | cons line lines ih =>
    cases line with
    | insn own => rw [List.cons_append, fieldsFrom, ih, fieldsFrom, width, ← Nat.add_assoc,
        Line.length]
    | branch condition target =>
      rw [List.cons_append, fieldsFrom, ih, fieldsFrom, width, Line.length, List.cons_append,
        ← Nat.add_assoc, ← Nat.add_assoc]

/-- The line of a branch stands for the branch with its displacement. -/
theorem Line.insnAt_branch_eq_ok {condition : Branch} {target : Nat} {insn : Insn} :
    (branch condition target).insnAt offset = .ok insn ↔
      ∃ displacement, branchDisplacement (offset + condition.opcode.length + 4) target =
        .ok displacement ∧ .branch condition displacement = insn := by
  rw [insnAt]
  cases branchDisplacement (offset + condition.opcode.length + 4) target with
  | error error => simp [Except.map]
  | ok displacement => simp [Except.map]

/-- A line is as long as the instruction that it stands for. -/
theorem Line.length_eq {line : Line} {insn : Insn} (h : line.insnAt offset = .ok insn) :
    line.length = insn.encode.length := by
  cases line with
  | insn insn =>
    cases h
    rfl
  | branch condition target =>
    obtain ⟨displacement, -, rfl⟩ := insnAt_branch_eq_ok.mp h
    rw [length, Insn.encode, List.length_append, length_littleEndian]

/-- The first line and the lines that follow it. -/
theorem insnsFrom_cons_eq_ok {line : Line} :
    insnsFrom offset (line :: lines) = .ok insns ↔
      ∃ insn rest, line.insnAt offset = .ok insn ∧
        insnsFrom (offset + line.length) lines = .ok rest ∧ insns = insn :: rest := by
  rw [insnsFrom, bind_eq_ok]
  constructor
  · rintro ⟨insn, hinsn, h⟩
    obtain ⟨rest, hrest, h⟩ := bind_eq_ok.mp h
    cases h
    exact ⟨insn, rest, hinsn, hrest, rfl⟩
  · rintro ⟨insn, rest, hinsn, hrest, rfl⟩
    exact ⟨insn, hinsn, bind_eq_ok.mpr ⟨rest, hrest, rfl⟩⟩

/-- The instructions of lines take up as many bytes as the lines. -/
theorem length_assemble_of_insnsFrom (h : insnsFrom offset lines = .ok insns) :
    (assemble insns).length = width lines := by
  induction lines generalizing offset insns with
  | nil =>
    cases h
    rfl
  | cons line lines ih =>
    obtain ⟨insn, rest, hinsn, hrest, rfl⟩ := insnsFrom_cons_eq_ok.mp h
    rw [assemble, List.flatMap_cons, List.length_append, width, Line.length_eq hinsn]
    congr 1
    exact ih hrest

/-- Lines that follow one another stand for instructions that follow one another. -/
theorem insnsFrom_append (hlines : insnsFrom offset lines = .ok insns) {others : List Insn}
    (hmore : insnsFrom (offset + width lines) more = .ok others) :
    insnsFrom offset (lines ++ more) = .ok (insns ++ others) := by
  induction lines generalizing offset insns with
  | nil =>
    cases hlines
    exact hmore
  | cons line lines ih =>
    obtain ⟨insn, rest, hinsn, hrest, rfl⟩ := insnsFrom_cons_eq_ok.mp hlines
    rw [width, ← Nat.add_assoc] at hmore
    exact insnsFrom_cons_eq_ok.mpr ⟨insn, rest ++ others, hinsn, ih hrest hmore, rfl⟩

/-- Lines that are no branches stand for their instructions anywhere. -/
theorem insnsFrom_map_insn (offset : Nat) (insns : List Insn) :
    insnsFrom offset (insns.map .insn) = .ok insns := by
  induction insns generalizing offset with
  | nil => rfl
  | cons insn insns ih => exact insnsFrom_cons_eq_ok.mpr ⟨insn, insns, rfl, ih _, rfl⟩

/-- Each line of a listing stands at its offset. -/
theorem laid_of_insnsFrom (before after : List Insn)
    (h : insnsFrom (assemble before).length lines = .ok insns) :
    Laid (before ++ insns ++ after) (assemble before).length lines := by
  induction lines generalizing before insns with
  | nil => trivial
  | cons line lines ih =>
    obtain ⟨insn, rest, hinsn, hrest, rfl⟩ := insnsFrom_cons_eq_ok.mp h
    have hlength : (assemble (before ++ [insn])).length =
        (assemble before).length + line.length := by
      rw [assemble_append, List.length_append, Line.length_eq hinsn]
      simp [assemble]
    refine ⟨⟨insn, hinsn, before, rest ++ after, by simp, rfl⟩, ?_⟩
    rw [← hlength] at hrest ⊢
    simpa using ih (before ++ [insn]) hrest

/-- Lines that follow one another. -/
theorem laid_append :
    Laid listing offset (lines ++ more) ↔
      Laid listing offset lines ∧ Laid listing (offset + width lines) more := by
  induction lines generalizing offset with
  | nil => simp [Laid, width]
  | cons line lines ih => rw [List.cons_append, Laid, Laid, width, ih, and_assoc, Nat.add_assoc]

/-- The first instruction stands at the beginning. -/
theorem laid_insn_cons {insn : Insn} :
    Laid listing offset (.insn insn :: lines) ↔
      Starts listing offset insn ∧ Laid listing (offset + insn.encode.length) lines := by
  constructor
  · rintro ⟨⟨_, hinsn, hstarts⟩, hlines⟩
    cases hinsn
    exact ⟨hstarts, hlines⟩
  · rintro ⟨hstarts, hlines⟩
    exact ⟨⟨insn, rfl, hstarts⟩, hlines⟩

/-- Lines that are skipped stand behind a test. -/
theorem laid_unlessZero {inner : List Line} :
    Laid listing offset (unlessZero offset inner) ↔
      Laid listing offset [.insn .cmpCellZero, .branch .jz (offset + 11 + width inner)] ∧
        Laid listing (offset + 11) inner :=
  @laid_append offset [_, _] inner listing

/-- The code of an op takes up as many bytes wherever it stands and leaves for. -/
theorem width_op_lines (descriptors : Descriptors) (exits exits' : Exits) (offset offset' : Nat)
    (op : Op) :
    width (op.lines descriptors exits offset) = width (op.lines descriptors exits' offset') := by
  cases op <;> rfl

@[simp]
theorem width_loopLines (offset : Nat) (body : List Line) :
    width (loopLines offset body) = width body + 22 := by
  rw [loopLines, unlessZero, width, width, width_append]
  simp only [Line.length, Insn.encode, Branch.opcode, width, List.length_cons, List.length_nil]
  omega

/-- The code of a block takes up as many bytes wherever it stands and leaves for. -/
theorem width_lines (descriptors : Descriptors) (exits exits' : Exits) (offset offset' : Nat)
    (block : Block Op) :
    width (block.lines descriptors exits offset) =
      width (block.lines descriptors exits' offset') := by
  induction block generalizing offset offset' with
  | done => rfl
  | op op rest ih =>
    rw [Block.lines, Block.lines, width_append, width_append,
      width_op_lines descriptors exits exits' offset offset', ih]
  | loop body rest ihbody ihrest =>
    rw [Block.lines, Block.lines, width_append, width_append, width_loopLines, width_loopLines,
      ihbody _ (offset' + 11), ihrest]

/-- The exit is behind the code of the block. -/
theorem exit_exitsOf (descriptors : Descriptors) (block : Block Op) :
    (exitsOf descriptors block).exit =
      8 + width (block.lines descriptors (exitsOf descriptors block) 8) := by
  rw [width_lines descriptors (exitsOf descriptors block) ⟨0, 0⟩ 8 8]
  rfl

end X86

end TapeLang

import TapeLang.Proofs.Native.Generation
import TapeLang.Proofs.Relinking

/-!
# Generated code, assembled in two passes

The template generator makes one pass over the ops, and goes back to the branches that led forward.
What comes out is what an assembler makes that knows beforehand where each op will stand: the code
of an op begins behind the code of all ops before it, and a branch leads to a place that is read off
the ops. Jumps are followed by their nesting; the targets that they carry are not looked at.

## Main definitions

* `X86.encodeFrom`: the bytes of lines that are laid out from an offset on.
* `Op.template`: the lines of an op of a stream.
* `Op.branches`: the branch fields in the code of an op, and where they lead.
* `Assembled`: what the machine code of a stream is.

## Main results

* `branchDisplacement_eq_ok`: the word in the field of a branch.
* `lines_of_spells`: the lines of properly nested ops are their templates in a row.
* `assembled_of_templateCode`: generated code is assembled in two passes.
-/

namespace TapeLang

/-- The word of a number is found from its low 32 bits. -/
theorem ofInt_eq_of_emod {number other : Int} (h : number % 2 ^ 32 = other % 2 ^ 32) :
    UInt32.ofInt number = UInt32.ofInt other := by
  rw [UInt32.ofInt, UInt32.ofInt, h]

/-- The field of a branch holds the distance from its end to the target of the branch. If both are
numbers that a signed word can hold, the distance is a signed 32-bit number. -/
theorem branchDisplacement_eq_ok {source target : Nat} {displacement : UInt32}
    (h : branchDisplacement source target = .ok displacement) :
    displacement = UInt32.ofInt (target - source) ∧
      (source < 2 ^ 63 → target < 2 ^ 63 →
        -2 ^ 31 ≤ (target : Int) - source ∧ (target : Int) - source < 2 ^ 31) := by
  simp only [branchDisplacement] at h
  split at h
  · next hnear =>
    cases h
    constructor
    · -- a signed word is the number itself modulo `2 ^ 64`, so that its low 32 bits are the same
      refine ofInt_eq_of_emod ?_
      simp only [signedWord_eq_bmod, Int.bmod_def]
      omega
    · intro hsource htarget
      rw [signedWord_natCast hsource, signedWord_natCast htarget] at hnear
      exact hnear
  · cases h

namespace X86

/-- The four bytes of a branch field at an offset: the distance from the end of the field to the
target of the branch in two's complement, lowest byte first. -/
def fieldBytes (offset target : Nat) : List UInt8 :=
  littleEndian (UInt32.ofInt (target - (offset + 4 : Nat)))

/-- The distance from the end of a field to the target of its branch is a signed 32-bit number. -/
def Near (offset target : Nat) : Prop :=
  -2 ^ 31 ≤ (target : Int) - (offset + 4 : Nat) ∧ (target : Int) - (offset + 4 : Nat) < 2 ^ 31

/-- The bytes of a line at an offset. -/
def Line.encodeAt (offset : Nat) : Line → List UInt8
  | insn own => own.encode
  | branch condition target =>
    condition.opcode ++ fieldBytes (offset + condition.opcode.length) target

/-- The bytes of lines that are laid out from an offset on. -/
def encodeFrom : Nat → List Line → List UInt8
  | _, [] => []
  | offset, line :: lines => line.encodeAt offset ++ encodeFrom (offset + line.length) lines

variable {offset : Nat} {lines more : List Line} {insns : List Insn}

/-- A line is as long as its bytes. -/
theorem Line.length_encodeAt (offset : Nat) (line : Line) :
    (line.encodeAt offset).length = line.length := by
  cases line with
  | insn own => rfl
  | branch condition target => exact List.length_append

/-- Lines take up as many bytes as they are wide. -/
theorem length_encodeFrom (offset : Nat) (lines : List Line) :
    (encodeFrom offset lines).length = width lines := by
  induction lines generalizing offset with
  | nil => rfl
  | cons line lines ih => rw [encodeFrom, List.length_append, Line.length_encodeAt, ih, width]

/-- Lines that follow one another have their bytes one after another. -/
theorem encodeFrom_append (offset : Nat) (lines more : List Line) :
    encodeFrom offset (lines ++ more) =
      encodeFrom offset lines ++ encodeFrom (offset + width lines) more := by
  induction lines generalizing offset with
  | nil => rfl
  | cons line lines ih =>
    rw [List.cons_append, encodeFrom, ih, encodeFrom, width, List.append_assoc, ← Nat.add_assoc]

/-- The bytes of instructions that are no branches do not depend on where they stand. -/
theorem encodeFrom_map_insn (offset : Nat) (insns : List Insn) :
    encodeFrom offset (insns.map .insn) = assemble insns := by
  induction insns generalizing offset with
  | nil => rfl
  | cons insn insns ih =>
    rw [List.map_cons, encodeFrom, ih]
    rfl

/-- The instructions that lines stand for have the bytes of the lines. -/
theorem encodeFrom_of_insnsFrom (h : insnsFrom offset lines = .ok insns) :
    encodeFrom offset lines = assemble insns := by
  induction lines generalizing offset insns with
  | nil =>
    cases h
    rfl
  | cons line lines ih =>
    obtain ⟨insn, rest, hinsn, hrest, rfl⟩ := insnsFrom_cons_eq_ok.mp h
    have hline : line.encodeAt offset = insn.encode := by
      cases line with
      | insn own =>
        cases hinsn
        rfl
      | branch condition target =>
        obtain ⟨displacement, hdisplacement, rfl⟩ := Line.insnAt_branch_eq_ok.mp hinsn
        rw [Insn.encode, (branchDisplacement_eq_ok hdisplacement).1]
        rfl
    rw [encodeFrom, ih hrest, hline]
    rfl

/-- Where lines stand for instructions, their branches lead no farther than a field can say. -/
theorem near_of_insnsFrom (h : insnsFrom offset lines = .ok insns) {field target : Nat}
    (hmem : (field, target) ∈ fieldsFrom offset lines) (hfield : field + 4 < 2 ^ 63)
    (htarget : target < 2 ^ 63) : Near field target := by
  induction lines generalizing offset insns with
  | nil => cases hmem
  | cons line lines ih =>
    obtain ⟨insn, rest, hinsn, hrest, rfl⟩ := insnsFrom_cons_eq_ok.mp h
    cases line with
    | insn own => exact ih hrest hmem
    | branch condition place =>
      rcases List.mem_cons.mp hmem with heq | hmem
      · cases heq
        obtain ⟨displacement, hdisplacement, -⟩ := Line.insnAt_branch_eq_ok.mp hinsn
        exact (branchDisplacement_eq_ok hdisplacement).2 hfield htarget
      · rw [Line.length, ← Nat.add_assoc] at hrest
        exact ih hrest hmem

/-- A field stands among the bytes at its offset. -/
theorem exists_encodeFrom_eq {field target : Nat}
    (hmem : (field, target) ∈ fieldsFrom offset lines) :
    ∃ before after, encodeFrom offset lines = before ++ (fieldBytes field target ++ after) ∧
      field = offset + before.length := by
  induction lines generalizing offset with
  | nil => cases hmem
  | cons line lines ih =>
    -- a field of a later line stands as far behind the line as the field is in the other lines
    have hrest : (field, target) ∈ fieldsFrom (offset + line.length) lines →
        ∃ before after, encodeFrom offset (line :: lines) =
          before ++ (fieldBytes field target ++ after) ∧ field = offset + before.length := by
      intro hmem
      obtain ⟨before, after, hbytes, hfield⟩ := ih hmem
      refine ⟨line.encodeAt offset ++ before, after, ?_, ?_⟩
      · rw [encodeFrom, hbytes, List.append_assoc]
      · rw [hfield, List.length_append, Line.length_encodeAt, Nat.add_assoc]
    cases line with
    | insn own => exact hrest hmem
    | branch condition place =>
      rcases List.mem_cons.mp hmem with heq | hmem
      · cases heq
        refine ⟨condition.opcode, encodeFrom (offset + (Line.branch condition target).length) lines,
          ?_, rfl⟩
        rw [encodeFrom, Line.encodeAt, List.append_assoc]
      · refine hrest ?_
        rw [Line.length, ← Nat.add_assoc]
        exact hmem

end X86

open X86

/-- The exits of the code of ops. The epilogue takes seven bytes. -/
def exitsBehind (ops : Array Op) : Exits :=
  ⟨codeOffset ops ops.size, codeOffset ops ops.size + 7⟩

/-- The index of the partner of the jump at an index. -/
def partnerOf (ops : Array Op) (index : Nat) : Nat :=
  match Bracket.sideAt Op.side ops index with
  | some .opening => (Bracket.matchingClose Op.side ops index).getD 0
  | some .closing => (Bracket.matchingOpen Op.side ops index).getD 0
  | none => 0

/-- The lines of the op at an index. A jump leads behind its partner. -/
def Op.template (descriptors : Descriptors) (ops : Array Op) (index : Nat) : Op → List Line
  | .jumpIfZero _ =>
    [.insn .cmpCellZero, .branch .jz (codeOffset ops (partnerOf ops index + 1))]
  | .jumpIfNotZero _ =>
    [.insn .cmpCellZero, .branch .jnz (codeOffset ops (partnerOf ops index + 1))]
  | op => op.lines descriptors (exitsBehind ops) (codeOffset ops index)

/-- The branch fields in the code of the op at an index, and where their branches lead: a jump
behind its partner, a move and a scan that leave the tape to the exit, a transfer that leaves it to
the fault, a scan and a transfer that have nothing to do behind themselves, and a scan that goes on
to its own start. -/
def Op.branches (ops : Array Op) (index : Nat) : Op → List (Nat × Nat)
  | .forward _ | .backward _ => [(codeOffset ops index + 16, (exitsBehind ops).exit)]
  | .jumpIfZero _ | .jumpIfNotZero _ =>
    [(codeOffset ops index + 7, codeOffset ops (partnerOf ops index + 1))]
  | .scanUntilZero _ =>
    [(codeOffset ops index + 7, codeOffset ops (index + 1)),
      (codeOffset ops index + 27, (exitsBehind ops).exit),
      (codeOffset ops index + 32, codeOffset ops index)]
  | .transferAndZero _ =>
    [(codeOffset ops index + 7, codeOffset ops (index + 1)),
      (codeOffset ops index + 30, (exitsBehind ops).fault)]
  | .add _ | .sub _ | .write _ | .read _ | .setZero => []

/-- The templates of ops that stand from an index of a stream on. -/
def templatesFrom (descriptors : Descriptors) (ops : Array Op) (start : Nat) (items : List Op) :
    List Line :=
  (items.zipIdx start).flatMap fun entry => entry.1.template descriptors ops entry.2

/-- The branch fields of ops that stand from an index of a stream on. -/
def branchesFrom (ops : Array Op) (start : Nat) (items : List Op) : List (Nat × Nat) :=
  (items.zipIdx start).flatMap fun entry => entry.1.branches ops entry.2

/-- The lines of the code of a stream: the prologue, the templates of the ops, the exit and the
fault. -/
def assembledLines (descriptors : Descriptors) (ops : Array Op) : List Line :=
  prologue.map .insn ++ templatesFrom descriptors ops 0 ops.toList ++ epilogue.map .insn ++
    [.insn .movRbxRcx, .branch .jmp (exitsBehind ops).exit]

/-- The branch fields of the code of a stream, with the one at the end that leads from the fault to
the exit. -/
def codeBranches (ops : Array Op) : List (Nat × Nat) :=
  branchesFrom ops 0 ops.toList ++ [((exitsBehind ops).fault + 4, (exitsBehind ops).exit)]

section Templates

variable {descriptors : Descriptors} {ops : Array Op} {index : Nat} {op : Op}

/-- A system call takes 21 bytes. -/
theorem width_syscallLines (call : SystemCall) (descriptor : Int) (count : Nat) :
    width (List.replicate count (syscallLines call descriptor)).flatten = count * 21 := by
  induction count with
  | zero => rfl
  | succ count ih =>
    rw [List.replicate_succ, List.flatten_cons, width_append, ih, Nat.succ_mul, Nat.add_comm]
    rfl

/-- The lines of an op are as long as the op says. -/
theorem width_lines_eq (descriptors : Descriptors) (exits : Exits) (offset : Nat)
    (hside : op.side = none) : width (op.lines descriptors exits offset) = op.codeSize := by
  cases op with
  | add count | sub count =>
    rw [Op.lines, Op.codeSize]
    split <;> rfl
  | write count => exact width_syscallLines _ _ count
  | read count => exact width_syscallLines _ _ count
  | jumpIfZero target => cases hside
  | jumpIfNotZero target => cases hside
  | _ => rfl

/-- The template of an op that is no jump. -/
theorem template_of_side_eq_none (hside : op.side = none) :
    op.template descriptors ops index =
      op.lines descriptors (exitsBehind ops) (codeOffset ops index) := by
  cases op <;> first | rfl | cases hside

/-- The template of an op is as long as the op says. -/
theorem width_template (descriptors : Descriptors) (ops : Array Op) (index : Nat) (op : Op) :
    width (op.template descriptors ops index) = op.codeSize := by
  cases hside : op.side with
  | none => rw [template_of_side_eq_none hside, width_lines_eq _ _ _ hside]
  | some bracket => cases op <;> first | rfl | cases hside

/-- System calls have no branches. -/
theorem fieldsFrom_syscallLines (offset : Nat) (call : SystemCall) (descriptor : Int)
    (count : Nat) :
    fieldsFrom offset (List.replicate count (syscallLines call descriptor)).flatten = [] := by
  induction count generalizing offset with
  | zero => rfl
  | succ count ih =>
    rw [List.replicate_succ, List.flatten_cons, fieldsFrom_append, ih, List.append_nil]
    rfl

/-- The branches of a template are those of the op. -/
theorem fieldsFrom_template (h : ops[index]? = some op) :
    fieldsFrom (codeOffset ops index) (op.template descriptors ops index) =
      op.branches ops index := by
  have hnext := codeOffset_succ h
  cases op with
  | add count | sub count =>
    rw [template_of_side_eq_none rfl, Op.lines]
    split <;> rfl
  | write count => exact fieldsFrom_syscallLines _ _ _ count
  | read count => exact fieldsFrom_syscallLines _ _ _ count
  | scanUntilZero step | transferAndZero delta =>
    rw [Op.branches, hnext]
    rfl
  | _ => rfl

/-- Templates follow one another. -/
theorem templatesFrom_append (start : Nat) (items others : List Op) :
    templatesFrom descriptors ops start (items ++ others) =
      templatesFrom descriptors ops start items ++
        templatesFrom descriptors ops (start + items.length) others := by
  rw [templatesFrom, List.zipIdx_append, List.flatMap_append, templatesFrom, templatesFrom]

/-- The first template and those that follow it. -/
theorem templatesFrom_cons (start : Nat) (item : Op) (items : List Op) :
    templatesFrom descriptors ops start (item :: items) =
      item.template descriptors ops start ++ templatesFrom descriptors ops (start + 1) items := by
  rw [templatesFrom, List.zipIdx_cons, List.flatMap_cons, templatesFrom]

/-- Templates in a row are as long as their ops say. -/
theorem width_templatesFrom (start : Nat) (items : List Op) :
    width (templatesFrom descriptors ops start items) = codeSize items := by
  induction items generalizing start with
  | nil => rfl
  | cons item items ih =>
    rw [templatesFrom_cons, width_append, width_template, ih, codeSize_cons]

/-- The offset of the code of an op, from the ops before it. -/
theorem codeOffset_length {before after : List Op} (hops : ops.toList = before ++ after) :
    codeOffset ops before.length = 8 + codeSize before := by
  rw [codeOffset, hops, List.take_left]

/-- The exit is behind the code of all ops. -/
theorem exit_exitsBehind (ops : Array Op) :
    (exitsBehind ops).exit = 8 + codeSize ops.toList :=
  codeOffset_size ops

/-- The op at the start of a part of a stream. -/
theorem getElem?_length {before after : List Op} (hops : ops.toList = before ++ op :: after) :
    ops[before.length]? = some op := by
  rw [← Array.getElem?_toList, hops, List.getElem?_append_right (Nat.le_refl _), Nat.sub_self,
    List.getElem?_cons_zero]

/-- The branches of templates in a row are those of their ops. -/
theorem fieldsFrom_templatesFrom (before : List Op) {items : List Op}
    (hops : ops.toList = before ++ items) :
    fieldsFrom (codeOffset ops before.length) (templatesFrom descriptors ops before.length items) =
      branchesFrom ops before.length items := by
  induction items generalizing before with
  | nil => rfl
  | cons item items ih =>
    have hitem := getElem?_length hops
    have hrest := ih (before ++ [item]) (by simpa using hops)
    rw [List.length_append, List.length_singleton, codeOffset_succ hitem] at hrest
    rw [templatesFrom_cons, fieldsFrom_append, fieldsFrom_template hitem, width_template, hrest,
      branchesFrom, branchesFrom, List.zipIdx_cons, List.flatMap_cons]

/-- The partner of a loop start is the loop end behind the body, and the other way round. -/
theorem partnerOf_of_partners {opening closing : Nat}
    (h : Bracket.Partners Op.side ops opening closing) :
    partnerOf ops opening = closing ∧ partnerOf ops closing = opening := by
  constructor
  · rw [partnerOf, h.opening_eq]
    simp only [(Bracket.matchingClose_eq_some_iff h.opening_eq).mpr h, Option.getD_some]
  · rw [partnerOf, h.closing_eq]
    simp only [(Bracket.matchingOpen_eq_some_iff h.closing_eq).mpr h, Option.getD_some]

/-- The code behind a loop begins behind the code of its body and that of its two jumps. -/
theorem codeOffset_behind_loop {before inner after : List Op} {start stop : Nat}
    (hops : ops.toList = before ++ .jumpIfZero start :: (inner ++ .jumpIfNotZero stop :: after)) :
    codeOffset ops (before.length + inner.length + 2) =
      codeOffset ops before.length + (codeSize inner + 22) := by
  have hloop : ops.toList =
      (before ++ .jumpIfZero start :: (inner ++ [.jumpIfNotZero stop])) ++ after := by
    simpa using hops
  have hlength : before.length + inner.length + 2 =
      (before ++ Op.jumpIfZero start :: (inner ++ [Op.jumpIfNotZero stop])).length := by
    simp [Nat.add_assoc]
  rw [hlength, codeOffset_length hloop, codeOffset_length hops]
  simp only [codeSize_append, codeSize_cons, codeSize_nil, Op.codeSize]
  omega

/-- The lines of a loop lead behind the loop and back to the body, as far as the body is long. -/
theorem loopLines_eq {offset size : Nat} {body : List Line} (hbody : width body = size) :
    loopLines offset body =
      .insn .cmpCellZero :: .branch .jz (offset + (size + 22)) ::
        (body ++ [.insn .cmpCellZero, .branch .jnz (offset + 11)]) := by
  have htail : width [.insn .cmpCellZero, .branch .jnz (offset + 11)] = 11 := rfl
  have hskip : offset + 11 + (size + 11) = offset + (size + 22) := by omega
  rw [loopLines, unlessZero, width_append, hbody, htail, hskip]

/-- The lines of properly nested ops are their templates in a row. -/
theorem lines_of_spells (before after : List Op) {items : List Op} {block : Block Op}
    (hspells : Block.Spells Op.side items block) (hops : ops.toList = before ++ items ++ after) :
    block.lines descriptors (exitsBehind ops) (codeOffset ops before.length) =
      templatesFrom descriptors ops before.length items := by
  induction hspells generalizing before after with
  | done => rfl
  | @op item items rest hside _ ih =>
    have hitem : ops[before.length]? = some item := getElem?_length (by simpa using hops)
    have hrest := ih (before ++ [item]) after (by simpa using hops)
    rw [List.length_append, List.length_singleton, codeOffset_succ hitem] at hrest
    rw [Block.lines, width_lines_eq _ _ _ hside, hrest, templatesFrom_cons,
      template_of_side_eq_none hside]
  | @loop opening closing inner items body rest hopening hclosing hbody _ ihbody ihrest =>
    have hlength := hbody.length_eq
    have hpartners : Bracket.Partners Op.side ops before.length (before.length + body.size + 1) :=
      Bracket.partners_of_spells (by simpa using hops) hopening hclosing hbody
    obtain ⟨hclose, hopen⟩ := partnerOf_of_partners hpartners
    obtain ⟨start, rfl⟩ := Op.exists_of_opening hopening
    obtain ⟨stop, rfl⟩ := Op.exists_of_closing hclosing
    have hinner := ihbody (before ++ [.jumpIfZero start]) (.jumpIfNotZero stop :: items ++ after)
      (by simpa using hops)
    have hrest := ihrest (before ++ .jumpIfZero start :: (inner ++ [.jumpIfNotZero stop])) after
      (by simpa using hops)
    have hbehind : (before ++ Op.jumpIfZero start :: (inner ++ [Op.jumpIfNotZero stop])).length =
        before.length + inner.length + 2 := by
      simp [Nat.add_assoc]
    rw [List.length_append, List.length_singleton] at hinner
    rw [hbehind, codeOffset_behind_loop (by simpa using hops)] at hrest
    -- the body begins behind the first jump, and is as long as its ops say
    have hfirst : codeOffset ops (before.length + 1) = codeOffset ops before.length + 11 :=
      codeOffset_succ (getElem?_length (by simpa using hops))
    have hwidth : width (body.lines descriptors (exitsBehind ops)
        (codeOffset ops before.length + 11)) = codeSize inner := by
      rw [← hfirst, hinner, width_templatesFrom]
    have hstart : (Op.jumpIfZero start).template descriptors ops before.length =
        [.insn .cmpCellZero,
          .branch .jz (codeOffset ops before.length + (codeSize inner + 22))] := by
      rw [Op.template, hclose, ← hlength, codeOffset_behind_loop (by simpa using hops)]
    have hstop : (Op.jumpIfNotZero stop).template descriptors ops
        (before.length + inner.length + 1) =
        [.insn .cmpCellZero, .branch .jnz (codeOffset ops before.length + 11)] := by
      rw [Op.template, hlength, hopen, hfirst]
    have hindex : before.length + 1 + inner.length = before.length + inner.length + 1 := by omega
    rw [Block.lines, width_loopLines, hwidth, hrest, loopLines_eq hwidth, ← hfirst, hinner,
      templatesFrom_cons, templatesFrom_append, templatesFrom_cons, hindex, hstart, hstop, hfirst]
    simp only [List.cons_append, List.nil_append, List.append_assoc]

/-- The lines of the code for a block are those of the ops that spell it. -/
theorem callLines_eq {block : Block Op} (h : Block.ofOps ops = some block) :
    callLines descriptors block = assembledLines descriptors ops := by
  have hspells := Block.spells_of_ofItems? h
  have hblock : block.lines descriptors (exitsBehind ops) 8 =
      templatesFrom descriptors ops 0 ops.toList :=
    lines_of_spells [] [] hspells (by simp)
  have hexits : exitsOf descriptors block = exitsBehind ops := by
    rw [exitsOf, width_lines descriptors ⟨0, 0⟩ (exitsBehind ops) 8 8, hblock, width_templatesFrom,
      ← exit_exitsBehind]
    rfl
  rw [callLines, hexits, hblock, assembledLines]

/-- The branch fields of the code of a stream are those of its ops, and the one at the end. -/
theorem fieldsFrom_assembledLines (descriptors : Descriptors) (ops : Array Op) :
    fieldsFrom 0 (assembledLines descriptors ops) = codeBranches ops := by
  have hops : fieldsFrom 8 (templatesFrom descriptors ops 0 ops.toList) =
      branchesFrom ops 0 ops.toList := fieldsFrom_templatesFrom [] rfl
  have hfault : (exitsBehind ops).fault = 8 + codeSize ops.toList + 7 := by
    rw [← exit_exitsBehind]
    rfl
  have hbefore : fieldsFrom 0 (prologue.map .insn) = [] := rfl
  have hafter : ∀ offset, fieldsFrom offset (epilogue.map .insn) = [] := fun _ => rfl
  have hwidth : width (prologue.map .insn) = 8 := rfl
  have hwidth' : width (epilogue.map .insn) = 7 := rfl
  rw [assembledLines, fieldsFrom_append, fieldsFrom_append, fieldsFrom_append, hbefore, hafter,
    width_append, width_append, hwidth, hwidth', width_templatesFrom, Nat.zero_add, Nat.zero_add,
    hops, List.nil_append, List.append_nil, codeBranches, hfault]
  rfl

/-- The branch fields of a stream are those of one of its ops, or the one at the end. -/
theorem mem_codeBranches {branch : Nat × Nat} : branch ∈ codeBranches ops ↔
    (∃ (index : Nat) (op : Op), ops[index]? = some op ∧ branch ∈ op.branches ops index) ∨
      branch = ((exitsBehind ops).fault + 4, (exitsBehind ops).exit) := by
  rw [codeBranches, List.mem_append, List.mem_singleton, branchesFrom, List.mem_flatMap]
  refine or_congr_left ⟨?_, ?_⟩
  · rintro ⟨⟨op, index⟩, hmem, hbranch⟩
    rw [List.mem_zipIdx_iff_getElem?, Array.getElem?_toList] at hmem
    exact ⟨index, op, hmem, hbranch⟩
  · rintro ⟨index, op, hop, hbranch⟩
    refine ⟨(op, index), ?_, hbranch⟩
    rw [List.mem_zipIdx_iff_getElem?, Array.getElem?_toList]
    exact hop

/-- No branch leads farther than to the fault. -/
theorem target_le_of_mem {branch : Nat × Nat} (h : branch ∈ codeBranches ops) :
    branch.2 ≤ (exitsBehind ops).fault := by
  have hexit : (exitsBehind ops).exit ≤ (exitsBehind ops).fault := Nat.le_add_right _ _
  have hoffset : ∀ index, codeOffset ops index ≤ (exitsBehind ops).fault :=
    fun index => Nat.le_trans (exit_exitsBehind ops ▸ codeOffset_le ops index) hexit
  have hop : ∀ (index : Nat) (op : Op), ∀ branch ∈ op.branches ops index,
      branch.2 ≤ (exitsBehind ops).fault := by
    intro index op
    cases op <;> simp [Op.branches, hoffset, hexit]
  rcases mem_codeBranches.mp h with ⟨index, op, -, hmem⟩ | rfl
  · exact hop index op branch hmem
  · exact hexit

/-- The templates of a stream with the one of an op among them. -/
theorem exists_templatesFrom_eq (descriptors : Descriptors) (h : ops[index]? = some op) :
    ∃ before after, templatesFrom descriptors ops 0 ops.toList =
      before ++ op.template descriptors ops index ++ after ∧
      8 + width before = codeOffset ops index := by
  have hops := toList_eq_take_append h
  have hlt := (Array.getElem?_eq_some_iff.mp h).1
  have hindex : (ops.toList.take index).length = index :=
    List.length_take_of_le (Array.length_toList ▸ Nat.le_of_lt hlt)
  refine ⟨templatesFrom descriptors ops 0 (ops.toList.take index),
    templatesFrom descriptors ops (index + 1) (ops.toList.drop (index + 1)), ?_, ?_⟩
  · rw [hops, templatesFrom_append, Nat.zero_add, ← hops, hindex, templatesFrom_cons,
      List.append_assoc]
  · rw [width_templatesFrom, codeOffset]

end Templates

/-- What the machine code of a stream is. -/
structure Assembled (descriptors : Descriptors) (ops : Array Op) (bytes : Array UInt8) : Prop where
  /-- It is assembled from lines of which each one knows where all others stand. -/
  bytes_eq : bytes.toList = encodeFrom 0 (assembledLines descriptors ops)
  /-- It begins with the prologue. -/
  prologue_eq : (bytes.extract 0 8).toList = assemble prologue
  /-- The code of each op stands between its offset and that of the next op. -/
  template_eq : ∀ (index : Nat) (op : Op), ops[index]? = some op →
    (bytes.extract (codeOffset ops index) (codeOffset ops (index + 1))).toList =
      encodeFrom (codeOffset ops index) (op.template descriptors ops index)
  /-- The epilogue stands between the exit and the fault. -/
  epilogue_eq : (bytes.extract (exitsBehind ops).exit (exitsBehind ops).fault).toList =
    assemble epilogue
  /-- Behind the fault the index is handed over, and a jump leads to the exit. -/
  fault_eq : (bytes.extract (exitsBehind ops).fault ((exitsBehind ops).fault + 8)).toList =
    Insn.encode .movRbxRcx ++ Branch.opcode .jmp ++
      fieldBytes ((exitsBehind ops).fault + 4) (exitsBehind ops).exit
  /-- There is nothing else. -/
  size_eq : bytes.size = (exitsBehind ops).fault + 8
  /-- The branch fields of the lines are those that the ops say, and no others. -/
  fields_eq : fieldsFrom 0 (assembledLines descriptors ops) = codeBranches ops
  /-- Each jump has a partner, which stands on the other side of the same loop. -/
  partners : ∀ (index : Nat) (op : Op), ops[index]? = some op → op.isJump = true →
    Bracket.Partners Op.side ops index (partnerOf ops index) ∨
      Bracket.Partners Op.side ops (partnerOf ops index) index
  /-- Each branch field holds the distance to its target. -/
  field_eq : ∀ field target, (field, target) ∈ codeBranches ops →
    (bytes.extract field (field + 4)).toList = fieldBytes field target
  /-- In code of a size that a signed word can hold, the distance is a signed 32-bit number. -/
  near : bytes.size < 2 ^ 63 → ∀ field target, (field, target) ∈ codeBranches ops →
    Near field target
  /-- Filling in the branches that waited has changed nothing but their fields. -/
  filled : ∃ draft, (Emit.draft descriptors ops).run Emit.start = .ok ((), draft) ∧
    Emit.resolved draft = .ok ⟨bytes⟩ ∧ draft.buffer.size = bytes.size ∧
    (∀ fixup ∈ draft.fixups.toList, ∃ target, (fixup.offset, target) ∈ codeBranches ops) ∧
    ∀ index, (∀ fixup ∈ draft.fixups.toList, index < fixup.offset ∨ fixup.offset + 4 ≤ index) →
      bytes[index]? = draft.buffer.bytes[index]?

section Assembling

variable {descriptors : Descriptors} {ops : Array Op} {bytes : Array UInt8}

/-- A part of some bytes, from what stands before it. -/
theorem extract_toList {before middle after : List UInt8} {start stop : Nat}
    (h : bytes.toList = before ++ (middle ++ after)) (hstart : before.length = start)
    (hstop : start + middle.length = stop) : (bytes.extract start stop).toList = middle := by
  subst hstart hstop
  rw [Array.toList_extract, h, List.extract, Nat.add_sub_cancel_left, List.drop_left,
    List.take_left]

/-- A part of the lines of a stream in their code. -/
theorem extract_eq_encodeFrom {before lines after : List Line} {start stop : Nat}
    (hcode : bytes.toList = encodeFrom 0 (assembledLines descriptors ops))
    (hlines : assembledLines descriptors ops = before ++ (lines ++ after))
    (hstart : width before = start) (hstop : start + width lines = stop) :
    (bytes.extract start stop).toList = encodeFrom start lines := by
  subst hstart
  rw [hlines, encodeFrom_append, encodeFrom_append, Nat.zero_add] at hcode
  refine extract_toList hcode (length_encodeFrom _ _) ?_
  rw [length_encodeFrom, hstop]

/-- The prologue and the code of the ops take up the bytes in front of the exit. -/
theorem width_front (descriptors : Descriptors) (ops : Array Op) :
    width (prologue.map .insn ++ templatesFrom descriptors ops 0 ops.toList) =
      (exitsBehind ops).exit := by
  have hwidth : width (prologue.map .insn) = 8 := rfl
  rw [width_append, hwidth, width_templatesFrom, exit_exitsBehind]

/-- The epilogue takes up the bytes between the exit and the fault. -/
theorem width_assembledLines (descriptors : Descriptors) (ops : Array Op) :
    width (assembledLines descriptors ops) = (exitsBehind ops).fault + 8 := by
  have hlast : width [.insn .movRbxRcx, .branch .jmp (exitsBehind ops).exit] = 8 := rfl
  have hwidth : width (epilogue.map .insn) = 7 := rfl
  rw [assembledLines, width_append, width_append, width_front, hwidth, hlast]
  rfl

/-- The code of an op stands between its offset and that of the next op. -/
theorem extract_template {index : Nat} {op : Op}
    (hcode : bytes.toList = encodeFrom 0 (assembledLines descriptors ops))
    (hop : ops[index]? = some op) :
    (bytes.extract (codeOffset ops index) (codeOffset ops (index + 1))).toList =
      encodeFrom (codeOffset ops index) (op.template descriptors ops index) := by
  obtain ⟨before, after, htemplates, hwidth⟩ := exists_templatesFrom_eq descriptors hop
  have hlines : assembledLines descriptors ops = (prologue.map Line.insn ++ before) ++
      (op.template descriptors ops index ++ (after ++ (epilogue.map Line.insn ++
        [Line.insn .movRbxRcx, .branch .jmp (exitsBehind ops).exit]))) := by
    rw [assembledLines, htemplates]
    simp only [List.append_assoc]
  refine extract_eq_encodeFrom hcode hlines ?_ ?_
  · rw [width_append, ← hwidth]
    rfl
  · rw [width_template, codeOffset_succ hop]

/-- A branch field stands in the code with the distance to its target. -/
theorem extract_field {field target : Nat}
    (hcode : bytes.toList = encodeFrom 0 (assembledLines descriptors ops))
    (hmem : (field, target) ∈ codeBranches ops) :
    (bytes.extract field (field + 4)).toList = fieldBytes field target ∧
      field + 4 ≤ bytes.size := by
  rw [← fieldsFrom_assembledLines descriptors ops] at hmem
  obtain ⟨before, after, hbefore, hoffset⟩ := exists_encodeFrom_eq hmem
  have hlength : (fieldBytes field target).length = 4 := rfl
  rw [Nat.zero_add] at hoffset
  rw [hbefore] at hcode
  refine ⟨extract_toList hcode hoffset.symm rfl, ?_⟩
  rw [← Array.length_toList, hcode, List.length_append, List.length_append, hlength]
  omega

/-- The branches that wait in a draft are among those that the ops say, and filling them in changes
nothing but their fields. -/
theorem filled_of_templateCode (h : templateCode descriptors ops = .ok bytes) :
    ∃ draft, (Emit.draft descriptors ops).run Emit.start = .ok ((), draft) ∧
      Emit.resolved draft = .ok ⟨bytes⟩ ∧ draft.buffer.size = bytes.size ∧
      (∀ fixup ∈ draft.fixups.toList, ∃ target, (fixup.offset, target) ∈ codeBranches ops) ∧
      ∀ index,
        (∀ fixup ∈ draft.fixups.toList, index < fixup.offset ∨ fixup.offset + 4 ≤ index) →
        bytes[index]? = draft.buffer.bytes[index]? := by
  obtain ⟨draft, hdraft, hresolved⟩ := exists_draft_of_templateCode h
  obtain ⟨block, hblock, -, adds⟩ := Emit.adds_draft hdraft hresolved
  obtain ⟨hsize, hothers⟩ := Emit.of_foldlM_resolve hresolved
  refine ⟨draft, hdraft, hresolved, hsize.symm, fun fixup hfixup => ?_, hothers⟩
  obtain ⟨more, hmore, hfields⟩ := adds.fixups
  rw [hmore] at hfixup
  -- nothing waits at the start
  have hmem := hfields fixup hfixup
  have hstart : Emit.start.buffer.size = 0 := rfl
  rw [callLines_eq hblock, hstart, fieldsFrom_assembledLines] at hmem
  exact ⟨_, hmem⟩

/-- Each jump of properly nested ops is a partner of the op that is taken to be its partner. -/
theorem partners_partnerOf {block : Block Op} {index : Nat} {op : Op}
    (hblock : Block.ofOps ops = some block) (hop : ops[index]? = some op)
    (hjump : op.isJump = true) :
    Bracket.Partners Op.side ops index (partnerOf ops index) ∨
      Bracket.Partners Op.side ops (partnerOf ops index) index := by
  have hside : Bracket.sideAt Op.side ops index ≠ none := by
    rw [Bracket.sideAt, hop]
    exact Option.isSome_iff_ne_none.mp hjump
  obtain ⟨partner, hpartners | hpartners⟩ := Block.paired_of_ofOps hblock hside
  · rw [(partnerOf_of_partners hpartners).1]
    exact .inl hpartners
  · rw [(partnerOf_of_partners hpartners).2]
    exact .inr hpartners

end Assembling

/-- Whatever the template generator makes of ops, it is what an assembler makes of them that knows
where each op will stand. -/
theorem assembled_of_templateCode (descriptors : Descriptors) (ops : Array Op) (bytes : Array UInt8)
    (h : templateCode descriptors ops = .ok bytes) : Assembled descriptors ops bytes := by
  obtain ⟨block, insns, hblock, -, hlisting, hbytes⟩ := listing_of_templateCode h
  rw [listing, callLines_eq hblock] at hlisting
  have hcode : bytes.toList = encodeFrom 0 (assembledLines descriptors ops) := by
    rw [hbytes, encodeFrom_of_insnsFrom hlisting]
  have hsize : bytes.size = (exitsBehind ops).fault + 8 := by
    rw [← Array.length_toList, hcode, length_encodeFrom, width_assembledLines]
  -- the lines, with one of their parts in the middle
  have hprologue : assembledLines descriptors ops = [] ++ (prologue.map .insn ++
      (templatesFrom descriptors ops 0 ops.toList ++ (epilogue.map .insn ++
        [.insn .movRbxRcx, .branch .jmp (exitsBehind ops).exit]))) := by
    simp only [assembledLines, List.append_assoc, List.nil_append]
  have hepilogue : assembledLines descriptors ops =
      (prologue.map .insn ++ templatesFrom descriptors ops 0 ops.toList) ++ (epilogue.map .insn ++
        [.insn .movRbxRcx, .branch .jmp (exitsBehind ops).exit]) := by
    simp only [assembledLines, List.append_assoc]
  have hfault : assembledLines descriptors ops =
      (prologue.map .insn ++ templatesFrom descriptors ops 0 ops.toList ++ epilogue.map .insn) ++
        ([.insn .movRbxRcx, .branch .jmp (exitsBehind ops).exit] ++ []) := by
    simp only [assembledLines, List.append_assoc, List.append_nil]
  exact {
    bytes_eq := hcode
    prologue_eq :=
      (extract_eq_encodeFrom hcode hprologue rfl rfl).trans (encodeFrom_map_insn _ _)
    template_eq := fun index op hop => extract_template hcode hop
    epilogue_eq :=
      (extract_eq_encodeFrom hcode hepilogue (width_front descriptors ops) rfl).trans
        (encodeFrom_map_insn _ _)
    fault_eq := by
      refine (extract_eq_encodeFrom hcode hfault ?_ rfl).trans ?_
      · rw [width_append, width_front]
        rfl
      · rfl
    size_eq := hsize
    fields_eq := fieldsFrom_assembledLines descriptors ops
    partners := fun index op => partners_partnerOf hblock
    field_eq := fun field target hmem => (extract_field hcode hmem).1
    near := fun hlt field target hmem => by
      have htarget : target ≤ (exitsBehind ops).fault := target_le_of_mem hmem
      have hfield := (extract_field hcode hmem).2
      rw [← fieldsFrom_assembledLines descriptors ops] at hmem
      exact near_of_insnsFrom hlisting hmem (by omega) (by omega)
    filled := filled_of_templateCode h }

/-- In the code of a loop that counts down, the jump at the start leads 16 bytes forward, to the
exit, and the jump at the end 16 bytes back, to the body. The targets that the jumps carry are
wrong, which does not matter. -/
theorem assembled_of_templateCode_countdown :
    ∃ bytes, templateCode {} #[.jumpIfZero 7, .sub 1, .jumpIfNotZero 7] = .ok bytes ∧
      codeBranches #[.jumpIfZero 7, .sub 1, .jumpIfNotZero 7] = [(15, 35), (31, 19), (46, 35)] ∧
      bytes.size = 50 ∧
      (bytes.extract 15 19).toList = [16, 0, 0, 0] ∧
      (bytes.extract 31 35).toList = [240, 255, 255, 255] := by
  have hblock : Block.ofOps #[.jumpIfZero 7, .sub 1, .jumpIfNotZero 7] =
      some (.loop (.op (.sub 1) .done) .done) := rfl
  obtain ⟨bytes, hbytes, hsize⟩ := @exists_templateCode {} _ _ hblock (by simp [Op.InReach])
    (by decide)
  have hbranches : codeBranches #[.jumpIfZero 7, .sub 1, .jumpIfNotZero 7] =
      [(15, 35), (31, 19), (46, 35)] := by
    cbv
  have hassembled := assembled_of_templateCode {} _ bytes hbytes
  refine ⟨bytes, hbytes, hbranches, hsize, ?_, ?_⟩
  · rw [hassembled.field_eq 15 35 (by rw [hbranches]; decide)]
    decide
  · rw [hassembled.field_eq 31 19 (by rw [hbranches]; decide)]
    decide

end TapeLang

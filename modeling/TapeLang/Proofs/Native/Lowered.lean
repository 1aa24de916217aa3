import Mathlib.Data.List.Nodup
import TapeLang.Native.Lowering
import TapeLang.Proofs.Execution
import TapeLang.Proofs.Native.IrMachine
import TapeLang.Proofs.Native.Layout
import TapeLang.Proofs.Relinking

/-!
# The lines of lowered functions

What ops are lowered to, written down: the lines of an op are known from the numbers of the first
value and the first label that they define, and the lines of a block are those of its items with the
tests of its loops between them.

* `Lower.run_op`: an op is lowered to its lines.
* `Lower.run_of_spells`: properly nested ops are lowered to the lines of their block.
* `lines_of_loweredFunction`: ops that can be lowered are properly nested, and their function
  consists of the lines of their block and those around them.
-/

namespace TapeLang

namespace Ir

open Lower (tape result exit)

/-- The number of values that lines define. -/
def defined : List Line → Nat
  | [] => 0
  | .define _ _ :: rest => defined rest + 1
  | _ :: rest => defined rest

/-- Takes the current cell. The last value is what it holds. -/
def loadLines (value : Nat) : List Line :=
  [.define ⟨value⟩ .index, .define ⟨value + 1⟩ (.add tape ⟨value⟩),
    .define ⟨value + 2⟩ (.load ⟨value + 1⟩)]

/-- Changes the current cell. -/
def storeLines (byte : Value) (value : Nat) : List Line :=
  [.define ⟨value⟩ .index, .define ⟨value + 1⟩ (.add tape ⟨value⟩), .store byte ⟨value + 1⟩]

/-- Goes on in one of two blocks, of which one begins here. -/
def testLines (value : Nat) (loop behind next : Label) : List Line :=
  loadLines value ++ [.branch ⟨value + 2⟩ loop [] behind [], .block next []]

/-- Tests the current cell before and after the lines of the body of a loop. -/
def loopLines (value label : Nat) (body : List Line) : List Line :=
  testLines value ⟨label⟩ ⟨label + 1⟩ ⟨label⟩ ++ body ++
    testLines (value + 3 + defined body) ⟨label⟩ ⟨label + 1⟩ ⟨label + 1⟩

/-- Leaves through the exit with an index that is not on the tape. -/
def checkLines (index : Value) (value label : Nat) : List Line :=
  [.define ⟨value⟩ (.aboveEq index tapeSize), .branch ⟨value⟩ exit [index] ⟨label⟩ [],
    .block ⟨label⟩ []]

/-- Moves the pointer. -/
def moveLines (delta : Int) (value label : Nat) : List Line :=
  [.define ⟨value⟩ .index, .define ⟨value + 1⟩ (.addConst ⟨value⟩ delta), .setIndex ⟨value + 1⟩] ++
    checkLines ⟨value + 1⟩ (value + 2) label

/-- Calls a helper on the current cell. -/
def callLines (helper : Helper) (descriptor : Int) (count value : Nat) : List Line :=
  [.define ⟨value⟩ (.const .i32 descriptor), .define ⟨value + 1⟩ .index,
    .define ⟨value + 2⟩ (.add tape ⟨value + 1⟩),
    .define ⟨value + 3⟩ (.const .i64 (signedWord count)), .define ⟨value + 4⟩ (.helper helper),
    .call ⟨value + 4⟩ [⟨value⟩, ⟨value + 2⟩, ⟨value + 3⟩]]

/-- Does arithmetic on the current cell. -/
def adjustLines (operation : Value → Value → Operation) (count value : Nat) : List Line :=
  loadLines value ++ [.define ⟨value + 3⟩ (.const .i8 (UInt8.ofNat count).toNat),
    .define ⟨value + 4⟩ (operation ⟨value + 2⟩ ⟨value + 3⟩)] ++ storeLines ⟨value + 4⟩ (value + 5)

/-- Sets the current cell to zero. -/
def clearLines (value : Nat) : List Line :=
  .define ⟨value⟩ (.const .i8 (UInt8.ofNat 0).toNat) :: storeLines ⟨value⟩ (value + 1)

/-- Moves the pointer until the current cell is zero. -/
def scanLines (step : Int) (value label : Nat) : List Line :=
  [.jump ⟨label⟩ [], .block ⟨label⟩ []] ++
    testLines value ⟨label + 1⟩ ⟨label + 2⟩ ⟨label + 1⟩ ++ moveLines step (value + 3) (label + 3) ++
    [.jump ⟨label⟩ [], .block ⟨label + 2⟩ []]

/-- Finds the cell to which a value is moved. -/
def targetLines (delta : Int) (value label : Nat) : List Line :=
  [.define ⟨value⟩ .index, .define ⟨value + 1⟩ (.addConst ⟨value⟩ delta)] ++
    checkLines ⟨value + 1⟩ (value + 2) label

/-- Adds a byte to another cell. -/
def addToLines (byte target : Value) (value : Nat) : List Line :=
  [.define ⟨value⟩ (.add tape target), .define ⟨value + 1⟩ (.load ⟨value⟩),
    .define ⟨value + 2⟩ (.add ⟨value + 1⟩ byte), .store ⟨value + 2⟩ ⟨value⟩]

/-- Moves the value of the current cell to another one. -/
def transferLines (delta : Int) (value label : Nat) : List Line :=
  testLines value ⟨label⟩ ⟨label + 1⟩ ⟨label⟩ ++ targetLines delta (value + 3) (label + 2) ++
    addToLines ⟨value + 2⟩ ⟨value + 4⟩ (value + 6) ++ clearLines (value + 9) ++
    [.jump ⟨label + 1⟩ [], .block ⟨label + 1⟩ []]

/-- Hands over the index of the current cell. -/
def finishLines (value : Nat) : List Line :=
  [.define ⟨value⟩ .index, .jump exit [⟨value⟩], .block exit [result], .ret result]

end Ir

open Ir

/-- The lines of an op, from the numbers of their first value and label. -/
def Op.lowered (descriptors : Descriptors) (value label : Nat) : Op → List Ir.Line
  | .forward count => moveLines count value label
  | .backward count => moveLines (-count) value label
  | .add count => adjustLines .add count value
  | .sub count => adjustLines .sub count value
  | .write count => callLines .writeCell descriptors.output count value
  | .read count => callLines .readCell descriptors.input count value
  | .setZero => clearLines value
  | .scanUntilZero step => scanLines step value label
  | .transferAndZero delta => transferLines delta value label
  | .jumpIfZero _ | .jumpIfNotZero _ => []

/-- The lines of a block, from the numbers of their first value and label. -/
def Block.lowered (descriptors : Descriptors) : Nat → Nat → Block Op → List Ir.Line
  | _, _, .done => []
  | value, label, .op item rest =>
    let lines := item.lowered descriptors value label
    lines ++ rest.lowered descriptors (value + defined lines) (label + (labels lines).length)
  | value, label, .loop body rest =>
    let lines := loopLines value label (body.lowered descriptors (value + 3) (label + 2))
    lines ++ rest.lowered descriptors (value + defined lines) (label + (labels lines).length)

/-- The lines of the function for a block, which starts at the first cell. -/
def Ir.functionLines (descriptors : Descriptors) (block : Block Op) : List Ir.Line :=
  let lines := block.lowered descriptors 3 2
  [.block Lower.entry [Lower.tape], .define ⟨2⟩ (.const .i64 0), .setIndex ⟨2⟩] ++ lines ++
    finishLines (3 + defined lines)

/-- The displacement of the op is a signed 32-bit number. -/
def Op.Displaced : Op → Prop
  | .forward count | .backward count => count < 0x80000000
  | .scanUntilZero delta | .transferAndZero delta => -0x80000000 ≤ delta ∧ delta < 0x80000000
  | _ => True

/-- Lines are added, and the values and labels that they define are given out. -/
def Lowering.extend (lowering : Lowering) (lines : List Ir.Line) : Lowering :=
  { lowering with
    lines := lowering.lines.appendList lines
    values := lowering.values + defined lines
    labels := lowering.labels + (Ir.labels lines).length }

/-- The number of values that lines in a row define. -/
@[simp]
theorem Ir.defined_append (lines more : List Ir.Line) :
    defined (lines ++ more) = defined lines + defined more := by
  induction lines with
  | nil => exact (Nat.zero_add _).symm
  | cons line lines ih =>
    cases line with
    | define value operation => rw [List.cons_append, defined, defined, ih, Nat.add_right_comm]
    | _ => exact ih

/-- The number of values that the lines of a loop define. -/
theorem Ir.defined_loopLines (value label : Nat) (body : List Ir.Line) :
    defined (loopLines value label body) = defined body + 6 := by
  have htest : ∀ value loop behind next, defined (testLines value loop behind next) = 3 :=
    fun _ _ _ _ => rfl
  rw [loopLines, defined_append, defined_append, htest, htest]
  omega

/-- The labels of the blocks that the lines of a loop begin. -/
theorem Ir.labels_loopLines (value label : Nat) (body : List Ir.Line) :
    labels (loopLines value label body) = ⟨label⟩ :: (labels body ++ [⟨label + 1⟩]) := by
  rw [loopLines, labels_append, labels_append]
  rfl

/-- The labels of lines have the numbers that come first from a number on. -/
def Ir.Numbered (label : Nat) (lines : List Ir.Line) : Prop :=
  ((labels lines).map (·.index)).Perm (List.range' label (labels lines).length)

/-- The labels of an op are numbered. -/
theorem Op.numbered (descriptors : Descriptors) (value label : Nat) (item : Op) :
    Numbered label (item.lowered descriptors value label) := by
  cases item with
  | scanUntilZero step => exact .cons _ (.cons _ (.swap _ _ _))
  | transferAndZero delta => exact .cons _ (.swap _ _ _)
  | _ => exact .refl _

/-- The labels of lines in a row are numbered. -/
theorem Ir.Numbered.append {label : Nat} {lines more : List Ir.Line} (h : Numbered label lines)
    (hmore : Numbered (label + (labels lines).length) more) : Numbered label (lines ++ more) := by
  rw [Numbered, labels_append, List.map_append, List.length_append, ← List.range'_append_1]
  exact List.Perm.append h hmore

/-- The labels of a loop are numbered. -/
theorem Ir.Numbered.loop {value label : Nat} {body : List Ir.Line} (h : Numbered (label + 2) body) :
    Numbered label (loopLines value label body) := by
  rw [Numbered, labels_loopLines, List.map_cons, List.map_append, List.length_cons,
    List.length_append, List.length_singleton, List.range'_succ, List.range'_succ]
  exact .cons _ (List.perm_append_comm.trans (.cons _ h))

/-- The labels of a block are numbered. -/
theorem Block.numbered (descriptors : Descriptors) (value label : Nat) (block : Block Op) :
    Numbered label (block.lowered descriptors value label) := by
  induction block generalizing value label with
  | done => exact .refl _
  | op item rest ih => exact (item.numbered descriptors value label).append (ih _ _)
  | loop body rest ihbody ihrest => exact (Numbered.loop (ihbody _ _)).append (ihrest _ _)

/-- No two blocks of the function for a block have the same label. -/
theorem Ir.nodup_labels_functionLines (descriptors : Descriptors) (block : Block Op) :
    (labels (functionLines descriptors block)).Nodup := by
  have hlabels : labels (functionLines descriptors block) =
      Lower.entry :: (labels (block.lowered descriptors 3 2) ++ [Lower.exit]) := by
    rw [functionLines, labels_append, labels_append]
    rfl
  -- the entry has number 0, the exit number 1, and the blocks of the body follow
  have hnumbered : ((labels (functionLines descriptors block)).map (·.index)).Perm
      (List.range' 0 ((labels (block.lowered descriptors 3 2)).length + 2)) := by
    rw [hlabels, List.map_cons, List.map_append, List.range'_succ, List.range'_succ]
    exact .cons _ (List.perm_append_comm.trans (.cons _ (block.numbered descriptors 3 2)))
  exact List.Nodup.of_map (·.index) (hnumbered.nodup_iff.mpr List.nodup_range')

/-- Lines are added one after another. -/
theorem Lowering.extend_extend (lowering : Lowering) (lines more : List Ir.Line) :
    (lowering.extend lines).extend more = lowering.extend (lines ++ more) := by
  simp only [extend, Array.appendList, List.foldl_append, defined_append, labels_append,
    List.length_append, Nat.add_assoc]

namespace Lower

variable {descriptors : Descriptors} {lowering later : Lowering} {item : Op}

/-- What follows a step that succeeds. -/
theorem run_bind_of_ok {α β : Type} {first : Lower α} {value : α}
    (h : first.run lowering = .ok (value, later)) (next : α → Lower β) :
    (first >>= next).run lowering = (next value).run later := by
  rw [StateT.run_bind, h]
  rfl

/-- A displacement that is a signed 32-bit number is taken. -/
theorem run_displacement {number : Int} (h : -0x80000000 ≤ number ∧ number < 0x80000000) :
    (displacement number).run lowering = .ok (number, lowering) := by
  rw [displacement, if_pos h]
  rfl

/-- An op is lowered to its lines. -/
theorem run_op (hside : item.side = none) (hdisplaced : item.Displaced) :
    (op descriptors item).run lowering =
      .ok ((), lowering.extend (item.lowered descriptors lowering.values lowering.labels)) := by
  cases item with
  | forward count | backward count =>
    have hcount : count < 0x80000000 := hdisplaced
    rw [op, run_bind_of_ok (run_displacement (by omega))]
    rfl
  | scanUntilZero delta | transferAndZero delta =>
    rw [op, run_bind_of_ok (run_displacement hdisplaced)]
    rfl
  | jumpIfZero target => cases hside
  | jumpIfNotZero target => cases hside
  | _ => rfl

/-- The start of a loop is lowered to its test, and opens the loop. -/
theorem run_opening (descriptors : Descriptors) (lowering : Lowering)
    (hside : item.side = some .opening) :
    ∃ opened, (op descriptors item).run lowering = .ok ((), opened) ∧
      opened.lines = lowering.lines.appendList
        (testLines lowering.values ⟨lowering.labels⟩ ⟨lowering.labels + 1⟩ ⟨lowering.labels⟩) ∧
      opened.values = lowering.values + 3 ∧ opened.labels = lowering.labels + 2 ∧
      opened.loops = (⟨lowering.labels⟩, ⟨lowering.labels + 1⟩) :: lowering.loops := by
  cases item with
  | jumpIfZero target => exact ⟨_, rfl, rfl, rfl, rfl, rfl⟩
  | _ => cases hside

/-- The end of a loop is lowered to the test of the loop that was opened last. -/
theorem run_closing (descriptors : Descriptors) {body behind : Ir.Label}
    {outer : List (Ir.Label × Ir.Label)} (hside : item.side = some .closing)
    (hloops : lowering.loops = (body, behind) :: outer) :
    ∃ closed, (op descriptors item).run lowering = .ok ((), closed) ∧
      closed.lines = lowering.lines.appendList (testLines lowering.values body behind behind) ∧
      closed.values = lowering.values + 3 ∧ closed.labels = lowering.labels ∧
      closed.loops = outer := by
  obtain ⟨lines, values, labels, loops⟩ := lowering
  obtain rfl : loops = (body, behind) :: outer := hloops
  cases item with
  | jumpIfNotZero target => exact ⟨_, rfl, rfl, rfl, rfl, rfl⟩
  | _ => cases hside

/-- Properly nested ops are lowered to the lines of their block. -/
theorem run_of_spells {items : List Op} {block : Block Op}
    (hspells : Block.Spells Op.side items block) (hdisplaced : block.All Op.Displaced) :
    (forM items (op descriptors)).run lowering =
      .ok ((), lowering.extend (block.lowered descriptors lowering.values lowering.labels)) := by
  induction hspells generalizing lowering with
  | done => rfl
  | op hside _ ih =>
    rw [List.forM_cons, run_bind_of_ok (run_op hside hdisplaced.1)]
    refine (ih hdisplaced.2).trans ?_
    rw [Lowering.extend_extend]
    rfl
  | @loop opening closing inner items body rest hopening hclosing _ _ ihbody ihrest =>
    obtain ⟨opened, hopen, openedLines, openedValues, openedLabels, openedLoops⟩ :=
      run_opening descriptors lowering hopening
    have hinner := @ihbody opened hdisplaced.1
    rw [openedValues, openedLabels] at hinner
    -- the body leaves the list of open loops as it is, so that the loop end finds its own loop
    have hloops : (opened.extend (body.lowered descriptors (lowering.values + 3)
        (lowering.labels + 2))).loops = _ := openedLoops
    obtain ⟨closed, hclose, closedLines, closedValues, closedLabels, closedLoops⟩ :=
      run_closing descriptors hclosing hloops
    have hclosed : closed = lowering.extend (loopLines lowering.values lowering.labels
        (body.lowered descriptors (lowering.values + 3) (lowering.labels + 2))) := by
      refine Lowering.ext ?_ ?_ ?_ closedLoops
      · simp only [closedLines, Lowering.extend, openedLines, openedValues, loopLines,
          Array.appendList, List.foldl_append]
      · simp only [closedValues, Lowering.extend, openedValues, defined_loopLines]
        omega
      · simp only [closedLabels, Lowering.extend, openedLabels, labels_loopLines,
          List.length_append, List.length_cons, List.length_nil]
        omega
    rw [List.forM_cons, run_bind_of_ok hopen, List.forM_append, run_bind_of_ok hinner,
      List.forM_cons, run_bind_of_ok hclose, ihrest hdisplaced.2, hclosed, Lowering.extend_extend]
    rfl

/-- A displacement that is taken is a signed 32-bit number. -/
theorem of_run_displacement {number value : Int}
    (h : (displacement number).run lowering = .ok (value, later)) :
    -0x80000000 ≤ number ∧ number < 0x80000000 := by
  unfold displacement at h
  split at h
  · next hrange => exact hrange
  · cases h

/-- The displacement of an op that is lowered is a signed 32-bit number. -/
theorem displaced_of_run (h : (op descriptors item).run lowering = .ok ((), later)) :
    item.Displaced := by
  cases item with
  | forward count | backward count =>
    obtain ⟨_, _, hdisplacement, -⟩ := run_bind_eq_ok.mp h
    have hrange := of_run_displacement hdisplacement
    show count < 0x80000000
    omega
  | scanUntilZero delta | transferAndZero delta =>
    obtain ⟨_, _, hdisplacement, -⟩ := run_bind_eq_ok.mp h
    exact of_run_displacement hdisplacement
  | _ => trivial

/-- An op that is lowered opens or closes the loop that it stands on a side of. -/
theorem openAfter_of_run (h : (op descriptors item).run lowering = .ok ((), later)) :
    Bracket.openAfter Op.side lowering.loops.length [item] = some later.loops.length := by
  cases hside : item.side with
  | none =>
    rw [run_op hside (displaced_of_run h)] at h
    cases h
    simp only [Bracket.openAfter, hside, Lowering.extend]
  | some bracket =>
    cases bracket with
    | opening =>
      obtain ⟨opened, hopen, -, -, -, hloops⟩ := run_opening descriptors lowering hside
      rw [hopen] at h
      cases h
      simp only [Bracket.openAfter, hside, hloops, List.length_cons]
    | closing =>
      cases hloops : lowering.loops with
      | nil =>
        -- with no loop open a loop end is refused
        cases item with
        | jumpIfNotZero target =>
          obtain ⟨_, _, hpop, -⟩ := run_bind_eq_ok.mp h
          obtain ⟨_, _, hget, hpop⟩ := run_bind_eq_ok.mp hpop
          cases hget
          simp only [hloops] at hpop
          cases hpop
        | _ => cases hside
      | cons loop outer =>
        obtain ⟨closed, hclose, -, -, -, houter⟩ := run_closing descriptors hside hloops
        rw [hclose] at h
        cases h
        simp only [Bracket.openAfter, hside, houter, List.length_cons]

/-- Ops that are lowered open and close the loops that they stand on a side of. -/
theorem of_run_forM {items : List Op}
    (h : (forM items (op descriptors)).run lowering = .ok ((), later)) :
    (∀ item ∈ items, item.Displaced) ∧
      Bracket.openAfter Op.side lowering.loops.length items = some later.loops.length := by
  induction items generalizing lowering with
  | nil =>
    cases h
    exact ⟨fun _ hitem => absurd hitem List.not_mem_nil, rfl⟩
  | cons item items ih =>
    rw [List.forM_cons] at h
    obtain ⟨_, mid, hitem, hitems⟩ := run_bind_eq_ok.mp h
    obtain ⟨hdisplaced, hopen⟩ := ih hitems
    refine ⟨List.forall_mem_cons.mpr ⟨displaced_of_run hitem, hdisplaced⟩, ?_⟩
    rw [← List.singleton_append, Bracket.openAfter_append, openAfter_of_run hitem]
    exact hopen

/-- The end of a function, if no loop is open. -/
theorem lines_of_run_finish (hloops : lowering.loops = [])
    (h : finish.run lowering = .ok ((), later)) :
    later.lines = lowering.lines.appendList (finishLines lowering.values) := by
  obtain ⟨lines, values, labels, loops⟩ := lowering
  obtain rfl : loops = [] := hloops
  cases h
  rfl

/-- A function is not ended while loops are open. -/
theorem loops_of_run_finish (h : finish.run lowering = .ok ((), later)) : lowering.loops = [] := by
  cases hloops : lowering.loops with
  | nil => rfl
  | cons loop outer =>
    obtain ⟨_, _, hget, h⟩ := run_bind_eq_ok.mp h
    cases hget
    simp only [hloops, List.length_cons] at h
    cases h

end Lower

open Lower

/-- Ops that can be lowered are properly nested, and their function consists of the lines of their
block, which come after the beginning, and the end. -/
theorem lines_of_loweredFunction {descriptors : Descriptors} {ops : Array Op}
    {function : Ir.Function} (h : loweredFunction descriptors ops = .ok function) :
    ∃ block, Block.ofOps ops = some block ∧
      (block.All fun item => item ∈ ops.toList ∧ item.Displaced) ∧
      function.lines.toList = functionLines descriptors block := by
  unfold loweredFunction at h
  split at h
  · next lowering hstream =>
    cases h
    obtain ⟨_, entered, hzero, hstream⟩ := run_bind_eq_ok.mp hstream
    cases hzero
    obtain ⟨_, begun, hindex, hstream⟩ := run_bind_eq_ok.mp hstream
    obtain rfl : begun = ⟨#[.block entry [tape], .define ⟨2⟩ (.const .i64 0), .setIndex ⟨2⟩],
        3, 2, []⟩ := by
      cases hindex
      rfl
    obtain ⟨_, body, hops, hfinish⟩ := run_bind_eq_ok.mp hstream
    rw [List.forM_eq_forM] at hops
    -- no loop is open at the end, so that the ops are properly nested
    obtain ⟨hdisplaced, hopen⟩ := of_run_forM hops
    rw [loops_of_run_finish hfinish] at hopen
    obtain ⟨block, hblock⟩ := Bracket.exists_ofItems?_of_openAfter hopen
    have hspells := Block.spells_of_ofItems? hblock
    have hall : block.All fun item => item ∈ ops.toList ∧ item.Displaced :=
      hspells.all.imp fun item hitem => ⟨hitem.1, hdisplaced item hitem.1⟩
    rw [run_of_spells hspells (hall.imp fun item hitem => hitem.2)] at hops
    cases hops
    refine ⟨block, hblock, hall, ?_⟩
    simp [lines_of_run_finish rfl hfinish, Lowering.extend, functionLines]
  · cases h

/-- What lowering delivers is the function of ops that are properly nested. -/
theorem LoweredCode.generate_eq_ok {descriptors : Descriptors} {ops : Array Op}
    {code : LoweredCode} :
    LoweredCode.generate descriptors ops = .ok code ↔
      loweredFunction descriptors ops = .ok code.function ∧ Block.ofOps ops = some code.block ∧
        code.descriptors = descriptors := by
  rw [generate, bind_eq_ok]
  constructor
  · rintro ⟨function, hfunction, hblock⟩
    split at hblock
    · next block hofOps =>
      cases hblock
      exact ⟨hfunction, hofOps, rfl⟩
    · cases hblock
  · rintro ⟨hfunction, hblock, rfl⟩
    exact ⟨code.function, hfunction, by rw [hblock]; rfl⟩

end TapeLang

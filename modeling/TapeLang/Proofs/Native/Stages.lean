import TapeLang.Proofs.Idioms
import TapeLang.Proofs.Native.Emission
import TapeLang.Proofs.Relinking

/-!
# Stages of code generation

What the template generator does depends on little of an emitter: how long the code is, which labels
there are and which of them wait for their place, which branches wait for their labels, and which
loops are open. This is a stage, and each step of the generator leads from one stage to the next,
whatever the emitter is. An op makes the code longer, makes labels, and leaves branches behind that
wait; at a loop start the label behind the loop begins to wait, and at a loop end it gets its place.
All branches can be filled in when their labels have places. The only other obstacle are branches
that are too long, which there are in long code alone.

## Main definitions

* `Op.codeSize`, `Op.labelCount`, `Op.fixups`: the bytes of the code of an op, the labels that are
  made for it, and its branches that wait.
* `Emit.Stage`: what decides whether code generation goes on.
* `Emit.Advances`: a step of the generator succeeds at a stage, and leads to another one.

## Main results

* `Emit.advances_op`: the code of an op whose displacement fits can be generated.
* `Emit.advances_opening` and `Emit.advances_closing`: so can the code at the ends of a loop.
* `Emit.advances_resolveAll`: the branches that wait can be filled in.
-/

namespace TapeLang

open X86

/-- The number of bytes of the code of an op. Adding a multiple of 256 takes no code. -/
def Op.codeSize : Op → Nat
  | .forward _ | .backward _ => 20
  | .add count | .sub count => if UInt8.ofNat count = 0 then 0 else 5
  | .write count | .read count => count * 21
  | .jumpIfZero _ | .jumpIfNotZero _ => 11
  | .setZero => 5
  | .scanUntilZero _ => 36
  | .transferAndZero _ => 47

/-- The number of bytes of the code of ops in a row. -/
def codeSize (ops : List Op) : Nat :=
  (ops.map Op.codeSize).sum

@[simp]
theorem codeSize_nil : codeSize [] = 0 := rfl

@[simp]
theorem codeSize_cons (op : Op) (ops : List Op) :
    codeSize (op :: ops) = op.codeSize + codeSize ops :=
  List.sum_cons

@[simp]
theorem codeSize_append (ops more : List Op) :
    codeSize (ops ++ more) = codeSize ops + codeSize more := by
  simp only [codeSize, List.map_append, List.sum_append]

/-- The number of labels that are made for an op. -/
def Op.labelCount : Op → Nat
  | .jumpIfZero _ | .scanUntilZero _ => 2
  | .transferAndZero _ => 1
  | _ => 0

/-- The number of labels that are made for ops in a row. -/
def labelCount (ops : List Op) : Nat :=
  (ops.map Op.labelCount).sum

@[simp]
theorem labelCount_nil : labelCount [] = 0 := rfl

@[simp]
theorem labelCount_cons (op : Op) (ops : List Op) :
    labelCount (op :: ops) = op.labelCount + labelCount ops :=
  List.sum_cons

@[simp]
theorem labelCount_append (ops more : List Op) :
    labelCount (ops ++ more) = labelCount ops + labelCount more := by
  simp only [labelCount, List.map_append, List.sum_append]

/-- The branches of an op that wait for their labels when they are emitted, if the code of the op
begins at `offset` and `label` is the number of the first label that is made for it. A jump back and
the last branch of a scan lead to labels that have their places. -/
def Op.fixups (offset label : Nat) : Op → List Fixup
  | .forward _ | .backward _ => [⟨offset + 16, Emit.exit⟩]
  | .jumpIfZero _ => [⟨offset + 7, ⟨label⟩⟩]
  | .scanUntilZero _ => [⟨offset + 7, ⟨label + 1⟩⟩, ⟨offset + 27, Emit.exit⟩]
  | .transferAndZero _ => [⟨offset + 7, ⟨label⟩⟩, ⟨offset + 30, Emit.fault⟩]
  | _ => []

/-- Code of this length may be too long for its branches, and a branch is the reason why something
is not done. -/
def TooFar {α : Type} (limit : Nat) (outcome : Except CodegenError α) : Prop :=
  0x80000000 ≤ limit ∧ ∃ source target, outcome = .error (.branchTooFar source target)

/-- Nothing is done after a branch was too long. -/
theorem TooFar.bind {α β : Type} {limit : Nat} {first : Except CodegenError α}
    (h : TooFar limit first) (second : α → Except CodegenError β) :
    TooFar limit (first >>= second) := by
  obtain ⟨hlimit, source, target, rfl⟩ := h
  exact ⟨hlimit, source, target, rfl⟩

/-- The displacement of a branch fits if its ends are in code that is not too long. -/
theorem branchDisplacement_cases {source target limit : Nat} (hsource : source ≤ limit)
    (htarget : target ≤ limit) :
    (∃ displacement, branchDisplacement source target = .ok displacement) ∨
      TooFar limit (branchDisplacement source target) := by
  simp only [branchDisplacement]
  split
  · exact .inl ⟨_, rfl⟩
  · next hwide =>
    refine .inr ⟨Nat.le_of_not_lt fun hlimit => hwide ?_, source, target, rfl⟩
    rw [signedWord_natCast (by omega), signedWord_natCast (by omega)]
    omega

namespace Emit

/-- What decides whether code generation goes on. -/
structure Stage where
  /-- The number of bytes so far. -/
  size : Nat
  /-- The number of labels that have been made. -/
  labels : Nat
  /-- The labels that have no place yet. -/
  waiting : List Label
  /-- The branches that wait, in the order in which they were emitted. -/
  fixups : List Fixup
  /-- The open loops, innermost first. -/
  loops : List (Label × Label)

/-- The stage after more bytes. -/
def Stage.grow (stage : Stage) (bytes : Nat) : Stage :=
  { stage with size := stage.size + bytes }

/-- The stage after a branch to a label that has no place yet. -/
def Stage.await (stage : Stage) (opcode : Nat) (label : Label) : Stage :=
  { stage.grow (opcode + 4) with
    fixups := stage.fixups ++ [⟨stage.size + opcode, label⟩] }

/-- The stage after the code of an op, but for the loop that the op starts or ends. -/
def Stage.after (stage : Stage) (op : Op) : Stage :=
  { stage.grow op.codeSize with
    labels := stage.labels + op.labelCount
    fixups := stage.fixups ++ op.fixups stage.size stage.labels }

/-- Among the labels that wait, all of which have been made, are the exits. -/
structure Stage.Ready (stage : Stage) : Prop where
  exit_mem : exit ∈ stage.waiting
  fault_mem : fault ∈ stage.waiting
  made : ∀ label ∈ stage.waiting, label.index < stage.labels

/-- A branch that waits can be filled in: its field is in the code, and its label has been made and
has its place. -/
structure Stage.Fillable (stage : Stage) (fixup : Fixup) : Prop where
  inside : fixup.offset + 4 ≤ stage.size
  made : fixup.label.index < stage.labels
  placed : fixup.label ∉ stage.waiting

/-- Code generation has come to a stage. -/
structure At (stage : Stage) (emitter : Emitter) : Prop where
  size : emitter.buffer.size = stage.size
  labels : emitter.places.size = stage.labels
  loops : emitter.loops = stage.loops
  fixups : emitter.fixups.toList = stage.fixups
  /-- The labels without a place are those that wait. -/
  waiting : ∀ label : Label, emitter.places[label.index]? = some none ↔ label ∈ stage.waiting
  /-- No label waits twice. -/
  nodup : stage.waiting.Nodup
  /-- Places are in the code. -/
  placed : ∀ index target : Nat, emitter.places[index]? = some (some target) → target ≤ stage.size

/-- From a stage a step succeeds with a value and leads to a stage, unless code of this length is
too long for its branches. -/
def Advances {α : Type} (limit : Nat) (step : Emit α) (stage : Stage) (value : α) (next : Stage) :
    Prop :=
  ∀ emitter, At stage emitter →
    (∃ later, step.run emitter = .ok (value, later) ∧ At next later) ∨
      TooFar limit (step.run emitter)

section Advances

variable {limit : Nat} {stage mid next : Stage} {emitter : Emitter}

/-- A label that has been made and does not wait has a place. -/
theorem At.exists_place (hat : At stage emitter) {label : Label}
    (hlabel : label.index < stage.labels) (hplaced : label ∉ stage.waiting) :
    ∃ target, emitter.places[label.index]? = some (some target) ∧ target ≤ stage.size := by
  rw [← hat.labels] at hlabel
  have hsome := Array.getElem?_eq_getElem hlabel
  cases hplace : emitter.places[label.index] with
  | none =>
    rw [hplace] at hsome
    exact absurd ((hat.waiting label).mp hsome) hplaced
  | some target =>
    rw [hplace] at hsome
    exact ⟨target, hsome, hat.placed _ _ hsome⟩

/-- Steps follow one another. -/
theorem Advances.bind {α β : Type} {first : Emit α} {second : α → Emit β} {value : α} {result : β}
    (hfirst : Advances limit first stage value mid)
    (hsecond : Advances limit (second value) mid result next) :
    Advances limit (first >>= second) stage result next := by
  intro emitter hat
  rw [StateT.run_bind]
  rcases hfirst emitter hat with ⟨middle, hrun, hmid⟩ | hfar
  · rw [hrun]
    exact hsecond middle hmid
  · exact .inr (hfar.bind _)

/-- Doing nothing leads nowhere else. -/
theorem Advances.pure {α : Type} (value : α) :
    Advances limit (Pure.pure value) stage value stage :=
  fun emitter hat => .inl ⟨emitter, rfl, hat⟩

/-- Bytes can be emitted at any stage. -/
theorem At.emit (hat : At stage emitter) (bytes : List UInt8) :
    At (stage.grow bytes.length) { emitter with buffer := emitter.buffer.emit bytes } where
  size := by
    rw [CodeBuffer.size_emit, hat.size]
    rfl
  labels := hat.labels
  loops := hat.loops
  fixups := hat.fixups
  waiting := hat.waiting
  nodup := hat.nodup
  placed index target htarget :=
    Nat.le_trans (hat.placed index target htarget) (Nat.le_add_right _ _)

/-- Instructions can always be emitted. -/
theorem advances_insns {list : List Insn} (bytes : Nat) (hbytes : (assemble list).length = bytes) :
    Advances limit (insns list) stage () (stage.grow bytes) := by
  subst hbytes
  exact fun emitter hat => .inl ⟨_, rfl, hat.emit (assemble list)⟩

/-- A label can always be made. It is the next one, and waits. -/
theorem advances_newLabel : Advances limit newLabel stage ⟨stage.labels⟩
    { stage with labels := stage.labels + 1, waiting := ⟨stage.labels⟩ :: stage.waiting } := by
  intro emitter hat
  -- the number of the label is beyond all places, so it has not been among those that wait
  have hnew : ¬ (⟨stage.labels⟩ : Label) ∈ stage.waiting := by
    rw [← hat.waiting, ← hat.labels]
    simp
  refine .inl ⟨{ emitter with places := emitter.places.push none }, ?_, ?_⟩
  · rw [← hat.labels]
    rfl
  · refine ⟨hat.size, ?_, hat.loops, hat.fixups, ?_, List.nodup_cons.mpr ⟨hnew, hat.nodup⟩, ?_⟩
    · rw [← hat.labels]
      exact Array.size_push none
    · rintro ⟨index⟩
      rw [Array.getElem?_push, List.mem_cons, ← hat.waiting, ← hat.labels, Label.mk.injEq]
      by_cases hindex : index = emitter.places.size
      · simp [hindex]
      · rw [if_neg hindex, or_iff_right hindex]
    · intro index target htarget
      rw [Array.getElem?_push] at htarget
      split at htarget
      · cases htarget
      · exact hat.placed index target htarget

/-- A label that waits can be given its place. -/
theorem advances_bind {label : Label} {waiting : List Label}
    (hwaiting : stage.waiting.Perm (label :: waiting)) :
    Advances limit (Emit.bind label) stage () { stage with waiting } := by
  intro emitter hat
  have hplace : emitter.places[label.index]? = some none :=
    (hat.waiting label).mpr (hwaiting.mem_iff.mpr List.mem_cons_self)
  have hlt : label.index < emitter.places.size := (Array.getElem?_eq_some_iff.mp hplace).1
  -- the label waits only once, so it does not wait any longer
  obtain ⟨hlabel, hnodup⟩ := List.nodup_cons.mp (hwaiting.nodup_iff.mp hat.nodup)
  refine .inl ⟨{ emitter with
    places := emitter.places.setIfInBounds label.index (some emitter.buffer.size) }, ?_, ?_⟩
  · rw [Emit.bind, run_get_bind]
    simp only [hplace]
    rfl
  · refine ⟨hat.size, ?_, hat.loops, hat.fixups, ?_, hnodup, ?_⟩
    · rw [← hat.labels]
      exact Array.size_setIfInBounds
    · intro other
      have hmem : other ∈ stage.waiting ↔ other = label ∨ other ∈ waiting :=
        hwaiting.mem_iff.trans List.mem_cons
      by_cases hother : other = label
      · subst hother
        simp [hlabel, hlt]
      · have hne : label.index ≠ other.index := fun hindex => by
          cases label
          cases other
          exact hother (congrArg Label.mk hindex.symm)
        rw [Array.getElem?_setIfInBounds_ne hne, hat.waiting, hmem, or_iff_right hother]
    · intro index target htarget
      by_cases hindex : label.index = index
      · subst hindex
        rw [Array.getElem?_setIfInBounds_self_of_lt hlt] at htarget
        cases htarget
        exact Nat.le_of_eq hat.size
      · rw [Array.getElem?_setIfInBounds_ne hindex] at htarget
        exact hat.placed index target htarget

/-- The opcode of a branch can be emitted at any stage. -/
theorem advances_opcode (condition : Branch) :
    Advances limit (modify fun emitter =>
      { emitter with buffer := emitter.buffer.emit condition.opcode })
      stage () (stage.grow condition.opcode.length) :=
  fun _ hat => .inl ⟨_, rfl, hat.emit condition.opcode⟩

/-- A branch to a label that waits can always be emitted. It is noted, and filled in when the label
has got its place. -/
theorem advances_branch_ahead {condition : Branch} {label : Label} (opcode : Nat)
    (hopcode : condition.opcode.length = opcode) (hlabel : label ∈ stage.waiting) :
    Advances limit (branch condition label) stage () (stage.await opcode label) := by
  subst hopcode
  refine .bind (advances_opcode condition) fun emitter hat => ?_
  have hplace : emitter.places[label.index]?.join = none := by
    rw [(hat.waiting label).mpr hlabel]
    rfl
  have hemitted := hat.emit (littleEndian 0)
  refine .inl ⟨{ emitter with
    buffer := emitter.buffer.emitWord 0
    fixups := emitter.fixups.push ⟨emitter.buffer.size, label⟩ }, ?_,
    ⟨?_, hat.labels, hat.loops, ?_, hat.waiting, hat.nodup, ?_⟩⟩
  · rw [field, run_get_bind]
    simp only [hplace]
    rfl
  · exact hemitted.size.trans (Nat.add_assoc _ _ _)
  · rw [Array.toList_push, hat.fixups, hat.size]
    rfl
  · intro index target htarget
    exact (hemitted.placed index target htarget).trans_eq (Nat.add_assoc _ _ _)

/-- A branch back to a label that has its place can be emitted in code that is not too long. -/
theorem advances_branch_back {condition : Branch} {label : Label} (bytes : Nat)
    (hbytes : condition.opcode.length + 4 = bytes) (hlabel : label.index < stage.labels)
    (hplaced : label ∉ stage.waiting) (hlimit : stage.size + bytes ≤ limit) :
    Advances limit (branch condition label) stage () (stage.grow bytes) := by
  subst hbytes
  rw [← Nat.add_assoc] at hlimit
  rw [Stage.grow, ← Nat.add_assoc]
  refine .bind (advances_opcode condition) fun emitter hat => ?_
  obtain ⟨target, hplace, htarget⟩ := hat.exists_place hlabel hplaced
  have hsize : emitter.buffer.size + 4 ≤ limit := by rwa [hat.size]
  have htarget := Nat.le_trans htarget (Nat.le_trans (Nat.le_add_right _ 4) hlimit)
  rw [field, run_get_bind]
  simp only [hplace, Option.join_some]
  rcases branchDisplacement_cases hsize htarget with
    ⟨displacement, hdisplacement⟩ | ⟨hlong, source, target, hfar⟩
  · rw [hdisplacement]
    exact .inl ⟨_, rfl, hat.emit (littleEndian displacement)⟩
  · rw [hfar]
    exact .inr ⟨hlong, source, target, rfl⟩

/-- An operand fits if its distance does. -/
theorem advances_immediate {distance : Nat} (h : distance < 0x80000000) :
    Advances limit (immediate distance) stage (UInt32.ofNat distance) stage := by
  rw [immediate, if_pos h]
  exact .pure _

/-- A count that fits is a signed number. -/
theorem advances_moveCount {count : Nat} (h : count < 0x8000000000000000) :
    Advances limit (moveCount count) stage count stage := by
  rw [moveCount, if_pos h]
  exact .pure _

/-- A shift waits for the exit that it leaves through. -/
theorem advances_shift {register : IndexRegister} {delta : Int} {operand : UInt32} {outside : Label}
    (hlabel : outside ∈ stage.waiting) :
    Advances limit (shift register delta operand outside) stage ()
      ((stage.grow 14).await 2 outside) :=
  .bind (advances_insns 14 rfl) (advances_branch_ahead 2 rfl hlabel)

/-- A move of the pointer is a shift. -/
theorem advances_movePointer {delta : Int} (hdelta : delta.natAbs < 0x80000000)
    (hexit : exit ∈ stage.waiting) :
    Advances limit (movePointer delta) stage () ((stage.grow 14).await 2 exit) :=
  .bind (advances_immediate hdelta) (advances_shift hexit)

/-- The code of a scan can be generated if its step fits. -/
theorem advances_scan {descriptors : Descriptors} {step : Int} (hstep : step.natAbs < 0x80000000)
    (hready : stage.Ready) (hlimit : stage.size + 36 ≤ limit) :
    Advances limit (op descriptors (.scanUntilZero step)) stage ()
      (stage.after (.scanUntilZero step)) := by
  have hafter : stage.after (.scanUntilZero step) =
      { stage.grow 36 with
        labels := stage.labels + 2
        fixups := stage.fixups ++ [⟨stage.size + 7, ⟨stage.labels + 1⟩⟩] ++
          [⟨stage.size + 27, exit⟩] } := by
    rw [List.append_assoc]
    rfl
  rw [hafter]
  refine .bind advances_newLabel (.bind advances_newLabel ?_)
  -- the head gets its place at once, and the label behind the scan waits
  refine .bind (advances_bind (.swap _ _ _)) ?_
  refine .bind (advances_insns 5 rfl) ?_
  refine .bind (advances_branch_ahead 2 rfl List.mem_cons_self) ?_
  refine .bind (advances_movePointer hstep (List.mem_cons_of_mem _ hready.exit_mem)) ?_
  refine .bind (advances_branch_back 5 rfl ?_ ?_ hlimit) (advances_bind (.refl _))
  · exact Nat.lt_succ_of_lt (Nat.lt_succ_self _)
  · -- the label behind the scan is another one, and all that waited before are older
    intro hhead
    rcases List.mem_cons.mp hhead with hfound | hhead
    · exact Nat.succ_ne_self _ (Label.mk.inj hfound).symm
    · exact Nat.lt_irrefl _ (hready.made _ hhead)

/-- The code of a transfer can be generated if its distance fits. -/
theorem advances_transfer {descriptors : Descriptors} {delta : Int}
    (hdelta : delta.natAbs < 0x80000000) (hready : stage.Ready) :
    Advances limit (op descriptors (.transferAndZero delta)) stage ()
      (stage.after (.transferAndZero delta)) := by
  -- the two branches that wait: past the transfer, and to the fault
  have hafter : stage.after (.transferAndZero delta) =
      { stage.grow 47 with
        labels := stage.labels + 1
        fixups := stage.fixups ++ [⟨stage.size + 7, ⟨stage.labels⟩⟩] ++
          [⟨stage.size + 30, fault⟩] } := by
    rw [List.append_assoc]
    rfl
  rw [hafter]
  refine .bind advances_newLabel (.bind (advances_immediate hdelta) ?_)
  refine .bind (advances_insns 5 rfl) ?_
  refine .bind (advances_branch_ahead 2 rfl List.mem_cons_self) ?_
  refine .bind (advances_insns 3 rfl) ?_
  refine .bind (advances_shift (List.mem_cons_of_mem _ hready.fault_mem)) ?_
  exact .bind (advances_insns 13 rfl) (advances_bind (.refl _))

/-- A system call takes 21 bytes. -/
theorem advances_cellSyscalls {call : SystemCall} {descriptor : Int} {count : Nat} :
    Advances limit (cellSyscalls call descriptor count) stage () (stage.grow (count * 21)) := by
  refine advances_insns _ ?_
  induction count with
  | zero => rfl
  | succ count ih =>
    rw [List.replicate_succ, List.flatten_cons, assemble_append, List.length_append, ih,
      Nat.succ_mul, Nat.add_comm]
    rfl

/-- An op that makes no labels and does not branch makes the code longer. -/
theorem Stage.after_eq_grow {item : Op} (hlabels : item.labelCount = 0)
    (hfixups : item.fixups stage.size stage.labels = []) :
    stage.after item = stage.grow item.codeSize := by
  rw [after, hlabels, hfixups, List.append_nil]
  rfl

/-- The code of an op that is no jump can be generated if its displacement fits. Labels that are
made for it get their places. -/
theorem advances_op {descriptors : Descriptors} {item : Op} (hside : item.side = none)
    (hreach : item.InReach) (hready : stage.Ready) (hlimit : stage.size + item.codeSize ≤ limit) :
    Advances limit (op descriptors item) stage () (stage.after item) := by
  cases item with
  | forward count | backward count =>
    have hcount : count < 0x80000000 := hreach
    refine .bind (advances_moveCount (by omega)) ?_
    exact advances_movePointer (by simpa using hcount) hready.exit_mem
  | add count | sub count =>
    rw [Stage.after_eq_grow rfl rfl]
    refine advances_insns _ ?_
    rw [Op.codeSize]
    split <;> rfl
  | write count | read count =>
    rw [Stage.after_eq_grow rfl rfl]
    exact advances_cellSyscalls
  | setZero =>
    rw [Stage.after_eq_grow rfl rfl]
    exact advances_insns _ rfl
  | scanUntilZero step => exact advances_scan hreach hready hlimit
  | transferAndZero delta => exact advances_transfer hreach hready
  | jumpIfZero target => cases hside
  | jumpIfNotZero target => cases hside

/-- At a loop start the label of the body gets its place, and the label behind the loop waits. -/
theorem advances_opening {descriptors : Descriptors} {item : Op}
    (hside : item.side = some .opening) :
    Advances limit (op descriptors item) stage ()
      { stage.after item with
        waiting := ⟨stage.labels⟩ :: stage.waiting
        loops := (⟨stage.labels + 1⟩, ⟨stage.labels⟩) :: stage.loops } := by
  obtain ⟨target, rfl⟩ := Op.exists_of_opening hside
  refine .bind advances_newLabel ?_
  refine .bind (advances_insns 5 rfl) ?_
  refine .bind (advances_branch_ahead 2 rfl List.mem_cons_self) ?_
  refine .bind advances_newLabel (.bind (advances_bind (.refl _)) ?_)
  -- what is left is to note the loop
  intro emitter hat
  exact .inl ⟨_, rfl, hat.size, hat.labels, congrArg _ hat.loops, hat.fixups, hat.waiting,
    hat.nodup, hat.placed⟩

/-- The innermost open loop can be taken. -/
theorem advances_popLoop {loop : Label × Label} {loops : List (Label × Label)}
    (hloops : stage.loops = loop :: loops) :
    Advances limit popLoop stage loop { stage with loops } := by
  intro emitter hat
  refine .inl ⟨{ emitter with loops }, ?_, hat.size, hat.labels, rfl, hat.fixups, hat.waiting,
    hat.nodup, hat.placed⟩
  rw [popLoop, run_get_bind, hat.loops, hloops]
  rfl

/-- At a loop end the label behind the loop gets its place. -/
theorem advances_closing {descriptors : Descriptors} {item : Op} {body behind : Label}
    {waiting : List Label} {loops : List (Label × Label)} (hside : item.side = some .closing)
    (hloops : stage.loops = (body, behind) :: loops) (hwaiting : stage.waiting = behind :: waiting)
    (hbody : body.index < stage.labels) (hplaced : body ∉ stage.waiting)
    (hlimit : stage.size + item.codeSize ≤ limit) :
    Advances limit (op descriptors item) stage () { stage.after item with waiting, loops } := by
  obtain ⟨target, rfl⟩ := Op.exists_of_closing hside
  rw [Stage.after_eq_grow rfl rfl]
  refine .bind (advances_popLoop hloops) ?_
  refine .bind (advances_insns 5 rfl) ?_
  exact .bind (advances_branch_back 6 rfl hbody hplaced hlimit) (advances_bind (.of_eq hwaiting))

/-- The fields of branches that waited can be filled in if their labels have places. -/
theorem foldlM_resolve_cases {places : Array (Option Nat)} {size : Nat} {fixups : List Fixup}
    (hsize : size ≤ limit)
    (hfixups : ∀ fixup ∈ fixups, fixup.offset + 4 ≤ size ∧
      ∃ target, places[fixup.label.index]? = some (some target) ∧ target ≤ size)
    {buffer : CodeBuffer} (hbuffer : buffer.size = size) :
    (∃ filled, fixups.foldlM (resolve places) buffer = .ok filled ∧ filled.size = size) ∨
      TooFar limit (fixups.foldlM (resolve places) buffer) := by
  induction fixups generalizing buffer with
  | nil => exact .inl ⟨buffer, rfl, hbuffer⟩
  | cons fixup fixups ih =>
    obtain ⟨⟨hoffset, target, hplace, htarget⟩, hrest⟩ := List.forall_mem_cons.mp hfixups
    rw [List.foldlM_cons]
    rcases branchDisplacement_cases (Nat.le_trans hoffset hsize) (Nat.le_trans htarget hsize) with
      ⟨displacement, hdisplacement⟩ | ⟨hlong, source, target', hfar⟩
    · have hresolve : resolve places buffer fixup =
          .ok (buffer.overwrite fixup.offset (littleEndian displacement)) :=
        resolve_eq_ok.mpr ⟨target, displacement, hplace, hdisplacement, hbuffer ▸ hoffset, rfl⟩
      rw [hresolve]
      exact ih hrest (by rw [CodeBuffer.size_overwrite, hbuffer])
    · have hresolve : resolve places buffer fixup = .error (.branchTooFar source target') := by
        simp only [resolve, hplace, Option.join_some, hfar]
        rfl
      rw [hresolve]
      exact .inr ⟨hlong, source, target', rfl⟩

/-- The branches that waited are filled in if they can be, and the code is not too long. -/
theorem resolve_cases_of_at (hat : At stage emitter) {fixups : List Fixup}
    (hfixups : ∀ fixup ∈ fixups, stage.Fillable fixup) (hlimit : stage.size ≤ limit) :
    (∃ filled, fixups.foldlM (resolve emitter.places) emitter.buffer = .ok filled ∧
      filled.size = stage.size) ∨
      TooFar limit (fixups.foldlM (resolve emitter.places) emitter.buffer) := by
  refine foldlM_resolve_cases hlimit (fun fixup hfixup => ?_) hat.size
  obtain ⟨hinside, hmade, hplaced⟩ := hfixups fixup hfixup
  exact ⟨hinside, hat.exists_place hmade hplaced⟩

/-- All branches can be filled in if each of them can. -/
theorem advances_resolveAll (hfixups : ∀ fixup ∈ stage.fixups, stage.Fillable fixup)
    (hlimit : stage.size ≤ limit) :
    Advances limit resolveAll stage () { stage with fixups := [] } := by
  intro emitter hat
  have hresolved : resolved emitter =
      stage.fixups.foldlM (resolve emitter.places) emitter.buffer := by
    rw [resolved, hat.fixups]
  rw [resolveAll, run_get_bind, hresolved]
  rcases resolve_cases_of_at hat hfixups hlimit with
    ⟨filled, hfilled, hlength⟩ | ⟨hlong, source, target, hfar⟩
  · rw [hfilled]
    exact .inl ⟨_, rfl, hlength, hat.labels, hat.loops, rfl, hat.waiting, hat.nodup, hat.placed⟩
  · rw [hfar]
    exact .inr ⟨hlong, source, target, rfl⟩

/-- The stage before anything is emitted: the exits wait. -/
def initial : Stage :=
  ⟨0, 2, [exit, fault], [], []⟩

/-- Before anything is emitted the exits wait. -/
theorem at_start : At initial start where
  size := rfl
  labels := rfl
  loops := rfl
  fixups := rfl
  waiting := by
    rintro ⟨index⟩
    match index with
    | 0 => decide
    | 1 => decide
    | index + 2 => simp [start, initial, exit, fault]
  nodup := by decide
  placed := by
    intro index target htarget
    match index with
    | 0 => cases htarget
    | 1 => cases htarget
    | index + 2 => simp [start] at htarget

end Advances

end Emit

end TapeLang

import TapeLang.Native.Template
import TapeLang.Proofs.Execution
import TapeLang.Proofs.Native.Layout
import TapeLang.Proofs.Nesting

/-!
# Emission

What the template generator emits, in two steps. An emitter is seen with the fields of its waiting
branches filled in from the places that labels have in the end (`Emit.image`); seen in this way,
forward and backward branches are the same, and each step of the generator adds lines behind the
code there is (`Emit.Adds`). Ops for which there is code are properly nested, because otherwise the
label behind some loop never gets a place.

* `Emit.adds_op`: the code of an op is its lines.
* `Emit.adds_of_spells`: the code of properly nested ops is the lines of their block.
* `listing_of_templateCode`: the generated code is the listing of the block that the ops spell.
-/

namespace TapeLang

namespace CodeBuffer

/-- Overwriting bytes replaces as many of them. -/
theorem toList_overwrite {buffer : CodeBuffer} {offset : Nat} {bytes : List UInt8}
    (h : offset + bytes.length ≤ buffer.size) :
    (buffer.overwrite offset bytes).bytes.toList =
      buffer.bytes.toList.take offset ++ bytes ++
        buffer.bytes.toList.drop (offset + bytes.length) := by
  induction bytes generalizing buffer offset with
  | nil => simp [overwrite]
  | cons byte rest ih =>
    have hsize : buffer.size = buffer.bytes.toList.length := Array.length_toList.symm
    rw [List.length_cons] at h
    rw [overwrite, ih (by simp only [size, Array.size_setIfInBounds] at h ⊢; omega)]
    simp only [Array.toList_setIfInBounds]
    -- the first byte goes behind those in front, and the others go behind it
    have htake : (buffer.bytes.toList.set offset byte).take (offset + 1) =
        buffer.bytes.toList.take offset ++ [byte] := by
      rw [List.take_add_one, List.take_set_of_le (Nat.le_refl _), List.getElem?_set_self (by omega)]
      rfl
    rw [htake, List.drop_set_of_lt (by omega), List.length_cons, Nat.add_assoc,
      Nat.add_comm 1 rest.length]
    simp

/-- Overwriting bytes leaves all others alone. -/
theorem getElem?_overwrite {buffer : CodeBuffer} {offset index : Nat} {bytes : List UInt8}
    (h : index < offset ∨ offset + bytes.length ≤ index) :
    (buffer.overwrite offset bytes).bytes[index]? = buffer.bytes[index]? := by
  induction bytes generalizing buffer offset with
  | nil => rfl
  | cons byte rest ih =>
    rw [List.length_cons] at h
    rw [overwrite, ih (by omega)]
    exact Array.getElem?_setIfInBounds_ne (by omega)

/-- Buffers with the same bytes are equal. -/
theorem ext_toList {buffer other : CodeBuffer} (h : buffer.bytes.toList = other.bytes.toList) :
    buffer = other :=
  CodeBuffer.ext (Array.toList_inj.mp h)

/-- Bytes are emitted one after another. -/
theorem emit_emit (buffer : CodeBuffer) (bytes more : List UInt8) :
    (buffer.emit bytes).emit more = buffer.emit (bytes ++ more) :=
  ext_toList (by simp)

/-- What is emitted later does not matter when earlier bytes are overwritten. -/
theorem overwrite_emit {buffer : CodeBuffer} {offset : Nat} {bytes : List UInt8}
    (h : offset + bytes.length ≤ buffer.size) (more : List UInt8) :
    (buffer.emit more).overwrite offset bytes = (buffer.overwrite offset bytes).emit more := by
  have hsize : buffer.size = buffer.bytes.toList.length := Array.length_toList.symm
  refine ext_toList ?_
  rw [toList_overwrite (by rw [size_emit]; omega), toList_bytes_emit, toList_bytes_emit,
    toList_overwrite h, List.take_append_of_le_length (by omega),
    List.drop_append_of_le_length (by omega)]
  simp

/-- What was emitted last can be replaced by as many other bytes. -/
theorem overwrite_emit_self (buffer : CodeBuffer) {bytes others : List UInt8}
    (h : bytes.length = others.length) :
    (buffer.emit bytes).overwrite buffer.size others = buffer.emit others := by
  have hsize : buffer.size = buffer.bytes.toList.length := Array.length_toList.symm
  refine ext_toList ?_
  have hfits : buffer.size + others.length ≤ (buffer.emit bytes).size := by
    rw [size_emit]
    omega
  rw [toList_overwrite hfits, toList_bytes_emit, toList_bytes_emit, hsize,
    ← h, List.take_left, ← List.length_append, List.drop_length, List.append_nil]

end CodeBuffer

namespace Emit

open X86

variable {emitter mid later : Emitter}

/-- A label gets its place only once. -/
theorem of_run_bind {label : Label} (h : (bind label).run emitter = .ok ((), later)) :
    emitter.places[label.index]? = some none ∧ later = { emitter with
      places := emitter.places.setIfInBounds label.index (some emitter.buffer.size) } := by
  obtain ⟨_, _, hget, h⟩ := run_bind_eq_ok.mp h
  cases hget
  cases hplace : emitter.places[label.index]? with
  | none =>
    simp only [hplace] at h
    cases h
  | some place =>
    cases place with
    | some target =>
      simp only [hplace] at h
      cases h
    | none =>
      simp only [hplace] at h
      cases h
      exact ⟨rfl, rfl⟩

/-- The field of a branch is filled in, or it waits for its label. -/
theorem of_run_field {label : Label} (h : (field label).run emitter = .ok ((), later)) :
    (∃ target displacement, emitter.places[label.index]? = some (some target) ∧
      branchDisplacement (emitter.buffer.size + 4) target = .ok displacement ∧
      later = { emitter with buffer := emitter.buffer.emitWord displacement }) ∨
    later = { emitter with
      buffer := emitter.buffer.emitWord 0
      fixups := emitter.fixups.push ⟨emitter.buffer.size, label⟩ } := by
  obtain ⟨_, _, hget, h⟩ := run_bind_eq_ok.mp h
  cases hget
  cases hplace : emitter.places[label.index]?.join with
  | none =>
    simp only [hplace] at h
    cases h
    exact .inr rfl
  | some target =>
    simp only [hplace] at h
    cases hdisplacement : branchDisplacement (emitter.buffer.size + 4) target with
    | error error =>
      rw [hdisplacement] at h
      cases h
    | ok displacement =>
      rw [hdisplacement] at h
      cases h
      exact .inl ⟨target, displacement, Option.join_eq_some_iff.mp hplace, hdisplacement, rfl⟩

/-- An operand is a distance that fits. -/
theorem of_run_immediate {distance : Nat} {operand : UInt32}
    (h : (immediate distance).run emitter = .ok (operand, later)) :
    distance < 0x80000000 ∧ operand = UInt32.ofNat distance ∧ later = emitter := by
  unfold immediate at h
  split at h
  · next hlt =>
    cases h
    exact ⟨hlt, rfl, rfl⟩
  · cases h

/-- A count is a signed number that fits. -/
theorem of_run_moveCount {count : Nat} {delta : Int}
    (h : (moveCount count).run emitter = .ok (delta, later)) : delta = count ∧ later = emitter := by
  unfold moveCount at h
  split at h
  · cases h
    exact ⟨rfl, rfl⟩
  · cases h

/-- Labels that have a place keep it. -/
def Keeps (places others : Array (Option Nat)) : Prop :=
  ∀ index target : Nat, places[index]? = some (some target) → others[index]? = some (some target)

/-- The place that a label has in the end. -/
def placeOf (places : Array (Option Nat)) (label : Label) : Nat :=
  places[label.index]?.join.getD 0

/-- The code so far with all fields filled in from the places that labels have in the end. -/
def image (places : Array (Option Nat)) (emitter : Emitter) : Except CodegenError CodeBuffer :=
  emitter.fixups.toList.foldlM (resolve places) emitter.buffer

/-- The fields that wait for a label have been emitted. -/
def Emitted (emitter : Emitter) : Prop :=
  ∀ fixup ∈ emitter.fixups.toList, fixup.offset + 4 ≤ emitter.buffer.size

/-- A step of code generation adds lines behind the code, and gives places only to labels from
`floor` on. -/
structure Adds (places : Array (Option Nat)) (floor : Nat) (emitter : Emitter) (lines : List Line)
    (later : Emitter) : Prop where
  /-- The code grows by the lines. -/
  size : later.buffer.size = emitter.buffer.size + width lines
  /-- The same loops are open. -/
  loops : later.loops = emitter.loops
  /-- No label is lost. -/
  labels : emitter.places.size ≤ later.places.size
  /-- Labels keep their places. -/
  keeps : Keeps emitter.places later.places
  /-- Labels below the floor get no place. -/
  below : ∀ index < floor, later.places[index]? = emitter.places[index]?
  /-- Branches that wait go on waiting. Those that wait in addition are branches of the lines, and
  lead to the places of their labels. -/
  fixups : ∃ more, later.fixups.toList = emitter.fixups.toList ++ more ∧
    ∀ fixup ∈ more, (fixup.offset, placeOf places fixup.label) ∈
      fieldsFrom emitter.buffer.size lines
  /-- The fields that wait have been emitted. -/
  emitted : Emitted emitter → Emitted later
  /-- With all fields filled in, the code grows by the instructions that the lines stand for. -/
  code : Keeps later.places places → Emitted emitter → ∀ {buffer}, image places later = .ok buffer →
    ∃ before insns, image places emitter = .ok before ∧
      insnsFrom emitter.buffer.size lines = .ok insns ∧ buffer = before.emit (assemble insns)

variable {places : Array (Option Nat)} {floor : Nat} {lines more : List Line}

/-- Places are kept from one time to the next. -/
theorem Keeps.trans {first second third : Array (Option Nat)} (h : Keeps first second)
    (h' : Keeps second third) : Keeps first third :=
  fun index target hplace => h' index target (h index target hplace)

/-- Places are as they are in the end. -/
theorem Keeps.placeOf_eq {label : Label} {target : Nat} (h : Keeps emitter.places places)
    (hplace : emitter.places[label.index]? = some (some target)) :
    placeOf places label = target := by
  rw [placeOf, h _ _ hplace]
  rfl

/-- Doing nothing adds no lines. -/
theorem Adds.refl (emitter : Emitter) : Adds places floor emitter [] emitter where
  size := rfl
  loops := rfl
  labels := Nat.le_refl _
  keeps := fun _ _ hplace => hplace
  below := fun _ _ => rfl
  fixups := ⟨[], (List.append_nil _).symm, by simp⟩
  emitted := id
  code := fun _ _ {buffer} hbuffer =>
    ⟨buffer, [], hbuffer, rfl, CodeBuffer.ext_toList (by simp [assemble])⟩

/-- Lines are added after one another. -/
theorem Adds.trans (h : Adds places floor emitter lines mid)
    (h' : Adds places floor mid more later) :
    Adds places floor emitter (lines ++ more) later where
  size := by rw [h'.size, h.size, width_append, Nat.add_assoc]
  loops := h'.loops.trans h.loops
  labels := Nat.le_trans h.labels h'.labels
  keeps := h.keeps.trans h'.keeps
  below := fun index hindex => (h'.below index hindex).trans (h.below index hindex)
  fixups := by
    obtain ⟨first, hfirst, hfields⟩ := h.fixups
    obtain ⟨second, hsecond, hfields'⟩ := h'.fixups
    rw [h.size] at hfields'
    refine ⟨first ++ second, by rw [hsecond, hfirst, List.append_assoc], fun fixup hmem => ?_⟩
    rw [fieldsFrom_append, List.mem_append]
    exact (List.mem_append.mp hmem).imp (hfields fixup) (hfields' fixup)
  emitted := fun hemitted => h'.emitted (h.emitted hemitted)
  code := fun hkeeps hemitted {buffer} hbuffer => by
    -- filled in, the code is taken apart from its end, so that the later lines come first
    obtain ⟨middle, others, hmiddle, hothers, rfl⟩ := h'.code hkeeps (h.emitted hemitted) hbuffer
    obtain ⟨before, insns, hbefore, hinsns, rfl⟩ :=
      h.code (h'.keeps.trans hkeeps) hemitted hmiddle
    rw [h.size] at hothers
    refine ⟨before, insns ++ others, hbefore, insnsFrom_append hinsns hothers, ?_⟩
    rw [CodeBuffer.emit_emit, assemble_append]

/-- Which loops are open does not matter for what is added. -/
theorem Adds.withLoops (h : Adds places floor emitter lines later) (loops : List (Label × Label)) :
    Adds places floor { emitter with loops := loops } lines { later with loops := loops } where
  size := h.size
  loops := rfl
  labels := h.labels
  keeps := h.keeps
  below := h.below
  fixups := h.fixups
  emitted := h.emitted
  code := h.code

/-- Filling in a field overwrites four bytes that have been emitted. -/
theorem resolve_eq_ok {buffer filled : CodeBuffer} {fixup : Fixup} :
    resolve places buffer fixup = .ok filled ↔
      ∃ target displacement, places[fixup.label.index]? = some (some target) ∧
        branchDisplacement (fixup.offset + 4) target = .ok displacement ∧
        fixup.offset + 4 ≤ buffer.size ∧
        filled = buffer.overwrite fixup.offset (littleEndian displacement) := by
  unfold resolve
  constructor
  · intro h
    split at h
    · cases h
    · next target htarget =>
      obtain ⟨displacement, hdisplacement, hpatch⟩ := bind_eq_ok.mp h
      rw [CodeBuffer.patchWord] at hpatch
      split at hpatch
      · next hsize =>
        cases hpatch
        exact ⟨target, displacement, Option.join_eq_some_iff.mp htarget, hdisplacement, hsize, rfl⟩
      · cases hpatch
  · rintro ⟨target, displacement, hplace, hdisplacement, hsize, rfl⟩
    simp only [hplace, Option.join_some, hdisplacement]
    exact if_pos hsize

/-- Filling in fields changes nothing but the fields. -/
theorem of_foldlM_resolve {fixups : List Fixup} {buffer filled : CodeBuffer}
    (h : fixups.foldlM (resolve places) buffer = .ok filled) :
    filled.size = buffer.size ∧
      ∀ index, (∀ fixup ∈ fixups, index < fixup.offset ∨ fixup.offset + 4 ≤ index) →
        filled.bytes[index]? = buffer.bytes[index]? := by
  induction fixups generalizing buffer with
  | nil =>
    cases h
    exact ⟨rfl, fun _ _ => rfl⟩
  | cons fixup fixups ih =>
    rw [List.foldlM_cons] at h
    obtain ⟨first, hfirst, hrest⟩ := bind_eq_ok.mp h
    obtain ⟨target, displacement, -, -, -, rfl⟩ := resolve_eq_ok.mp hfirst
    obtain ⟨hsize, hbytes⟩ := ih hrest
    refine ⟨by rw [hsize, CodeBuffer.size_overwrite], fun index hindex => ?_⟩
    obtain ⟨hfixup, hfixups⟩ := List.forall_mem_cons.mp hindex
    rw [hbytes index hfixups, CodeBuffer.getElem?_overwrite (by simpa using hfixup)]

/-- Fields that were emitted earlier are filled in as if nothing had been emitted since. -/
theorem of_foldlM_resolve_emit {fixups : List Fixup} {buffer filled : CodeBuffer}
    (bytes : List UInt8) (hfixups : ∀ fixup ∈ fixups, fixup.offset + 4 ≤ buffer.size)
    (h : fixups.foldlM (resolve places) (buffer.emit bytes) = .ok filled) :
    ∃ before, fixups.foldlM (resolve places) buffer = .ok before ∧ before.size = buffer.size ∧
      filled = before.emit bytes := by
  induction fixups generalizing buffer with
  | nil =>
    cases h
    exact ⟨buffer, rfl, rfl, rfl⟩
  | cons fixup fixups ih =>
    have hfixup := hfixups fixup List.mem_cons_self
    rw [List.foldlM_cons] at h
    obtain ⟨first, hresolve, h⟩ := bind_eq_ok.mp h
    obtain ⟨target, displacement, hplace, hdisplacement, -, rfl⟩ := resolve_eq_ok.mp hresolve
    -- the field lies in front of the bytes, so that these may be emitted afterwards
    rw [CodeBuffer.overwrite_emit hfixup] at h
    have hrest : ∀ fixup' ∈ fixups, fixup'.offset + 4 ≤
        (buffer.overwrite fixup.offset (littleEndian displacement)).size := fun fixup' hmem => by
      rw [CodeBuffer.size_overwrite]
      exact hfixups fixup' (List.mem_cons_of_mem _ hmem)
    obtain ⟨before, hbefore, hsize, rfl⟩ := ih hrest h
    refine ⟨before, ?_, by rw [hsize, CodeBuffer.size_overwrite], rfl⟩
    rw [List.foldlM_cons,
      resolve_eq_ok.mpr ⟨target, displacement, hplace, hdisplacement, hfixup, rfl⟩]
    exact hbefore

/-- Emitting instructions adds them. -/
theorem adds_insns {insns : List Insn} (h : (Emit.insns insns).run emitter = .ok ((), later)) :
    Adds places floor emitter (insns.map .insn) later := by
  have hwidth := length_assemble_of_insnsFrom (insnsFrom_map_insn emitter.buffer.size insns)
  cases h
  refine ⟨?_, rfl, Nat.le_refl _, fun _ _ => id, fun _ _ => rfl,
    ⟨[], (List.append_nil _).symm, by simp⟩, ?_, ?_⟩
  · rw [← hwidth]
    exact CodeBuffer.size_emit _ _
  · intro hemitted fixup hmem
    refine Nat.le_trans (hemitted fixup hmem) ?_
    exact (CodeBuffer.size_emit _ _).symm ▸ Nat.le_add_right _ _
  · intro _ hemitted buffer hbuffer
    obtain ⟨before, hbefore, -, rfl⟩ := of_foldlM_resolve_emit _ hemitted hbuffer
    exact ⟨before, insns, hbefore, insnsFrom_map_insn _ insns, rfl⟩

/-- A new label is the next one. -/
theorem adds_newLabel (places : Array (Option Nat)) {label : Label}
    (hfloor : floor ≤ emitter.places.size)
    (h : newLabel.run emitter = .ok (label, later)) :
    Adds places floor emitter [] later ∧ label.index = emitter.places.size ∧
      later.places[label.index]? = some none ∧ later.fixups = emitter.fixups := by
  cases h
  refine ⟨⟨rfl, rfl, ?_, ?_, ?_, ⟨[], (List.append_nil _).symm, by simp⟩, id, ?_⟩, rfl, ?_, rfl⟩
  · exact (Array.size_push none).symm ▸ Nat.le_succ _
  · intro index target hplace
    rw [Array.getElem?_push, if_neg, hplace]
    rintro rfl
    simp at hplace
  · intro index hindex
    exact (Array.getElem?_push ..).trans (if_neg (by omega))
  · intro _ _ buffer hbuffer
    exact ⟨buffer, [], hbuffer, rfl, CodeBuffer.ext_toList (by simp [assemble])⟩
  · exact Array.getElem?_push_size

/-- Giving a label its place adds no lines. -/
theorem adds_bind (places : Array (Option Nat)) {label : Label} (hfloor : floor ≤ label.index)
    (h : (Emit.bind label).run emitter = .ok ((), later)) :
    Adds places floor emitter [] later ∧
      later.places[label.index]? = some (some emitter.buffer.size) ∧
      (∀ index, index ≠ label.index → later.places[index]? = emitter.places[index]?) ∧
      later.fixups = emitter.fixups := by
  obtain ⟨hplace, rfl⟩ := of_run_bind h
  have hlt : label.index < emitter.places.size := (Array.getElem?_eq_some_iff.mp hplace).1
  -- no label but this one is given a place
  have hother : ∀ index, index ≠ label.index →
      (emitter.places.setIfInBounds label.index (some emitter.buffer.size))[index]? =
        emitter.places[index]? :=
    fun index hne => Array.getElem?_setIfInBounds_ne hne.symm
  refine ⟨⟨rfl, rfl, ?_, ?_, ?_, ⟨[], (List.append_nil _).symm, by simp⟩, id, ?_⟩, ?_, hother, rfl⟩
  · exact Nat.le_of_eq Array.size_setIfInBounds.symm
  · intro index target htarget
    have hne : index ≠ label.index := by
      rintro rfl
      rw [hplace] at htarget
      cases htarget
    rw [hother index hne, htarget]
  · exact fun index hindex => hother index (by omega)
  · intro _ _ buffer hbuffer
    exact ⟨buffer, [], hbuffer, rfl, CodeBuffer.ext_toList (by simp [assemble])⟩
  · exact Array.getElem?_setIfInBounds_self_of_lt hlt

/-- A line for a branch stands for the branch with its displacement. -/
theorem insnsFrom_branch {offset target : Nat} {condition : Branch} {displacement : UInt32}
    (h : branchDisplacement (offset + condition.opcode.length + 4) target = .ok displacement) :
    insnsFrom offset [.branch condition target] = .ok [.branch condition displacement] := by
  refine insnsFrom_cons_eq_ok.mpr ⟨.branch condition displacement, [], ?_, rfl, rfl⟩
  rw [Line.insnAt, h]
  rfl

/-- The code of a branch. -/
theorem assemble_branch (condition : Branch) (displacement : UInt32) :
    assemble [.branch condition displacement] = condition.opcode ++ littleEndian displacement := by
  simp [assemble, Insn.encode]

/-- A branch to a label that has its place adds its line. -/
theorem adds_branch_back (places : Array (Option Nat)) (floor : Nat) {condition : Branch}
    {label : Label} {target : Nat} {displacement : UInt32}
    (hplace : emitter.places[label.index]? = some (some target))
    (hdisplacement : branchDisplacement (emitter.buffer.size + condition.opcode.length + 4) target =
      .ok displacement) :
    Adds places floor emitter [.branch condition (placeOf places label)] { emitter with
      buffer := emitter.buffer.emit (condition.opcode ++ littleEndian displacement) } := by
  refine ⟨?_, rfl, Nat.le_refl _, fun _ _ => id, fun _ _ => rfl,
    ⟨[], (List.append_nil _).symm, by simp⟩, ?_, ?_⟩
  · rw [CodeBuffer.size_emit, List.length_append, length_littleEndian]
    rfl
  · intro hemitted fixup hmem
    rw [CodeBuffer.size_emit]
    exact Nat.le_trans (hemitted fixup hmem) (Nat.le_add_right _ _)
  · intro hkeeps hemitted buffer hbuffer
    obtain ⟨before, hbefore, -, rfl⟩ := of_foldlM_resolve_emit _ hemitted hbuffer
    refine ⟨before, [.branch condition displacement], hbefore, ?_, by rw [assemble_branch]⟩
    rw [hkeeps.placeOf_eq hplace]
    exact insnsFrom_branch hdisplacement

/-- A branch that waits for its label adds its line, which is complete when all fields are filled
in. -/
theorem adds_branch_ahead (places : Array (Option Nat)) (floor : Nat) (emitter : Emitter)
    (condition : Branch) (label : Label) :
    Adds places floor emitter [.branch condition (placeOf places label)] { emitter with
      buffer := emitter.buffer.emit (condition.opcode ++ littleEndian 0)
      fixups := emitter.fixups.push ⟨emitter.buffer.size + condition.opcode.length, label⟩ } := by
  refine ⟨?_, rfl, Nat.le_refl _, fun _ _ => id, fun _ _ => rfl,
    ⟨_, Array.toList_push, by simp [fieldsFrom]⟩, ?_, ?_⟩
  · rw [CodeBuffer.size_emit, List.length_append, length_littleEndian]
    rfl
  · intro hemitted fixup hmem
    rw [CodeBuffer.size_emit, List.length_append, length_littleEndian]
    rw [Array.toList_push, List.mem_append, List.mem_singleton] at hmem
    rcases hmem with hmem | rfl
    · have hlt := hemitted fixup hmem
      omega
    · exact Nat.le_of_eq (Nat.add_assoc ..)
  · intro _ hemitted buffer hbuffer
    -- the branches that waited before are filled in first, and this one last
    rw [image, Array.toList_push, List.foldlM_append] at hbuffer
    obtain ⟨filled, hearlier, hlast⟩ := bind_eq_ok.mp hbuffer
    obtain ⟨before, hbefore, hsize, rfl⟩ := of_foldlM_resolve_emit _ hemitted hearlier
    have hresolve : resolve places (before.emit (condition.opcode ++ littleEndian 0))
        ⟨emitter.buffer.size + condition.opcode.length, label⟩ = .ok buffer :=
      (bind_pure _).symm.trans hlast
    obtain ⟨target, displacement, hplace, hdisplacement, -, rfl⟩ := resolve_eq_ok.mp hresolve
    have htarget : placeOf places label = target := by
      rw [placeOf, hplace]
      rfl
    have hoffset : emitter.buffer.size + condition.opcode.length =
        (before.emit condition.opcode).size := by rw [CodeBuffer.size_emit, hsize]
    refine ⟨before, [.branch condition displacement], hbefore, ?_, ?_⟩
    · rw [htarget]
      exact insnsFrom_branch hdisplacement
    · rw [hoffset, ← CodeBuffer.emit_emit, CodeBuffer.overwrite_emit_self _ (by rfl),
        CodeBuffer.emit_emit, assemble_branch]

/-- A branch leads to the place that its label has in the end, whether it has it already or not. -/
theorem adds_branch (places : Array (Option Nat)) (floor : Nat) {condition : Branch} {label : Label}
    (h : (branch condition label).run emitter = .ok ((), later)) :
    Adds places floor emitter [.branch condition (placeOf places label)] later ∧
      later.places = emitter.places ∧
      (emitter.places[label.index]? = some none →
        ∃ fixup ∈ later.fixups.toList, fixup.label = label) := by
  obtain ⟨_, _, hopcode, hfield⟩ := run_bind_eq_ok.mp h
  cases hopcode
  rcases of_run_field hfield with ⟨target, displacement, hplace, hdisplacement, rfl⟩ | rfl
  · rw [CodeBuffer.emitWord, CodeBuffer.emit_emit]
    rw [CodeBuffer.size_emit] at hdisplacement
    refine ⟨adds_branch_back places floor hplace hdisplacement, rfl, fun hnone => ?_⟩
    rw [hnone] at hplace
    cases hplace
  · rw [CodeBuffer.emitWord, CodeBuffer.emit_emit, CodeBuffer.size_emit]
    refine ⟨adds_branch_ahead places floor emitter condition label, rfl, fun _ => ?_⟩
    exact ⟨⟨emitter.buffer.size + condition.opcode.length, label⟩, by simp, rfl⟩

/-- A shift adds its lines. -/
theorem adds_shift {register : IndexRegister} {delta : Int} {outside : Label}
    (h : (shift register delta (UInt32.ofNat delta.natAbs) outside).run emitter = .ok ((), later)) :
    Adds places floor emitter (shiftLines register delta (placeOf places outside)) later := by
  obtain ⟨_, mid, hinsns, hbranch⟩ := run_bind_eq_ok.mp h
  exact (adds_insns hinsns).trans (adds_branch _ _ hbranch).1

/-- A move of the pointer is a shift by a displacement that fits. -/
theorem adds_movePointer (places : Array (Option Nat)) (floor : Nat) {delta : Int}
    (h : (movePointer delta).run emitter = .ok ((), later)) :
    Adds places floor emitter (shiftLines .rbx delta (placeOf places exit)) later ∧
      delta.natAbs < 0x80000000 := by
  obtain ⟨operand, mid, hoperand, hshift⟩ := run_bind_eq_ok.mp h
  obtain ⟨hlt, rfl, rfl⟩ := of_run_immediate hoperand
  exact ⟨adds_shift hshift, hlt⟩

/-- The exits as they are placed in the end. -/
def exitsIn (places : Array (Option Nat)) : Exits :=
  ⟨placeOf places exit, placeOf places fault⟩

/-- The code of a scan is its lines. -/
theorem adds_scan {descriptors : Descriptors} {step : Int} (hfloor : floor ≤ emitter.places.size)
    (hkeeps : Keeps later.places places)
    (h : (op descriptors (.scanUntilZero step)).run emitter = .ok ((), later)) :
    Adds places floor emitter
      ((Op.scanUntilZero step).lines descriptors (exitsIn places) emitter.buffer.size) later ∧
      (Op.scanUntilZero step).InReach := by
  obtain ⟨head, first, hhead, h⟩ := run_bind_eq_ok.mp h
  obtain ⟨found, second, hfound, h⟩ := run_bind_eq_ok.mp h
  obtain ⟨_, third, hplace, h⟩ := run_bind_eq_ok.mp h
  obtain ⟨_, fourth, htest, h⟩ := run_bind_eq_ok.mp h
  obtain ⟨_, fifth, hleave, h⟩ := run_bind_eq_ok.mp h
  obtain ⟨_, sixth, hmove, h⟩ := run_bind_eq_ok.mp h
  obtain ⟨_, seventh, hback, hbehind⟩ := run_bind_eq_ok.mp h
  -- what each step adds; the labels that are bound are above the floor, since they were made here
  obtain ⟨addsHead, headIndex, -, -⟩ := adds_newLabel places hfloor hhead
  have hfloor' := Nat.le_trans hfloor addsHead.labels
  obtain ⟨addsFound, foundIndex, -, -⟩ := adds_newLabel places hfloor' hfound
  obtain ⟨addsPlace, placeHead, -, -⟩ :=
    adds_bind places (by omega : floor ≤ head.index) hplace
  have addsTest : Adds places floor third _ fourth := adds_insns htest
  have addsLeave : Adds places floor fourth _ fifth := (adds_branch _ _ hleave).1
  obtain ⟨addsMove, hreach⟩ := adds_movePointer places floor hmove
  have addsBack : Adds places floor sixth _ seventh := (adds_branch _ _ hback).1
  obtain ⟨addsBehind, placeFound, -, -⟩ :=
    adds_bind places (by omega : floor ≤ found.index) hbehind
  have addsFront := addsHead.trans (addsFound.trans addsPlace)
  have addsRest := addsTest.trans (addsLeave.trans (addsMove.trans (addsBack.trans addsBehind)))
  -- the places of the labels in the end are those at which they were bound
  have hhead : placeOf places head = emitter.buffer.size := by
    rw [(addsRest.keeps.trans hkeeps).placeOf_eq placeHead, addsFound.size, addsHead.size]
    rfl
  have hfound : placeOf places found = emitter.buffer.size + 36 := by
    rw [hkeeps.placeOf_eq placeFound, addsBack.size, addsMove.size, addsLeave.size, addsTest.size,
      addsFront.size]
    rfl
  have adds := addsFront.trans addsRest
  rw [hhead, hfound] at adds
  exact ⟨adds, hreach⟩

/-- The code of a transfer is its lines. -/
theorem adds_transfer {descriptors : Descriptors} {delta : Int}
    (hfloor : floor ≤ emitter.places.size)
    (hkeeps : Keeps later.places places)
    (h : (op descriptors (.transferAndZero delta)).run emitter = .ok ((), later)) :
    Adds places floor emitter
      ((Op.transferAndZero delta).lines descriptors (exitsIn places) emitter.buffer.size) later ∧
      (Op.transferAndZero delta).InReach := by
  obtain ⟨behind, _, hlabel, h⟩ := run_bind_eq_ok.mp h
  obtain ⟨operand, first, hoperand, htail⟩ := run_bind_eq_ok.mp h
  obtain ⟨hreach, rfl, rfl⟩ := of_run_immediate hoperand
  obtain ⟨_, second, htest, h⟩ := run_bind_eq_ok.mp htail
  obtain ⟨_, third, hleave, h⟩ := run_bind_eq_ok.mp h
  obtain ⟨_, fourth, hcopy, h⟩ := run_bind_eq_ok.mp h
  obtain ⟨_, fifth, hshift, h⟩ := run_bind_eq_ok.mp h
  obtain ⟨_, sixth, hmove, hbehind⟩ := run_bind_eq_ok.mp h
  obtain ⟨addsLabel, labelIndex, -, -⟩ := adds_newLabel places hfloor hlabel
  have addsTest : Adds places floor first _ second := adds_insns htest
  have addsLeave : Adds places floor second _ third := (adds_branch _ _ hleave).1
  have addsCopy : Adds places floor third _ fourth := adds_insns hcopy
  have addsShift : Adds places floor fourth _ fifth := adds_shift hshift
  have addsMove : Adds places floor fifth _ sixth := adds_insns hmove
  obtain ⟨addsBehind, placeBehind, -, -⟩ :=
    adds_bind places (by omega : floor ≤ behind.index) hbehind
  -- the label stands behind all the lines, whose lengths are fixed
  have hplace : placeOf places behind = emitter.buffer.size + 47 := by
    rw [hkeeps.placeOf_eq placeBehind, addsMove.size, addsShift.size, addsCopy.size,
      addsLeave.size, addsTest.size, addsLabel.size]
    rfl
  have adds := addsLabel.trans (addsTest.trans (addsLeave.trans (addsCopy.trans
    (addsShift.trans (addsMove.trans addsBehind)))))
  rw [hplace] at adds
  exact ⟨adds, hreach⟩

/-- The code of an op that is no jump is its lines. -/
theorem adds_op (places : Array (Option Nat)) {descriptors : Descriptors} {item : Op}
    (hside : item.side = none)
    (hfloor : floor ≤ emitter.places.size) (hkeeps : Keeps later.places places)
    (h : (op descriptors item).run emitter = .ok ((), later)) :
    Adds places floor emitter (item.lines descriptors (exitsIn places) emitter.buffer.size) later ∧
      item.InReach := by
  cases item with
  | forward count =>
    obtain ⟨delta, mid, hcount, hmove⟩ := run_bind_eq_ok.mp h
    obtain ⟨rfl, rfl⟩ := of_run_moveCount hcount
    obtain ⟨adds, hreach⟩ := adds_movePointer _ _ hmove
    exact ⟨adds, by rwa [Int.natAbs_natCast] at hreach⟩
  | backward count =>
    obtain ⟨delta, mid, hcount, hmove⟩ := run_bind_eq_ok.mp h
    obtain ⟨rfl, rfl⟩ := of_run_moveCount hcount
    obtain ⟨adds, hreach⟩ := adds_movePointer _ _ hmove
    exact ⟨adds, by rwa [Int.natAbs_neg, Int.natAbs_natCast] at hreach⟩
  | add count =>
    refine ⟨?_, trivial⟩
    have adds : Adds places floor emitter _ later := adds_insns h
    rw [Op.lines]
    split
    · next hzero => rwa [if_pos hzero] at adds
    · next hne => rwa [if_neg hne] at adds
  | sub count =>
    refine ⟨?_, trivial⟩
    have adds : Adds places floor emitter _ later := adds_insns h
    rw [Op.lines]
    split
    · next hzero => rwa [if_pos hzero] at adds
    · next hne => rwa [if_neg hne] at adds
  | write count =>
    have adds : Adds places floor emitter _ later := adds_insns h
    rw [List.map_flatten, List.map_replicate] at adds
    exact ⟨adds, trivial⟩
  | read count =>
    have adds : Adds places floor emitter _ later := adds_insns h
    rw [List.map_flatten, List.map_replicate] at adds
    exact ⟨adds, trivial⟩
  | setZero => exact ⟨adds_insns h, trivial⟩
  | scanUntilZero step => exact adds_scan hfloor hkeeps h
  | transferAndZero delta => exact adds_transfer hfloor hkeeps h
  | jumpIfZero target => cases hside
  | jumpIfNotZero target => cases hside

/-- The code at a loop start tests the current cell. The loop is open then, and the label behind it
waits for its place. -/
theorem adds_opening (places : Array (Option Nat)) {descriptors : Descriptors} {item : Op}
    (hside : item.side = some .opening) (hfloor : floor ≤ emitter.places.size)
    (h : (op descriptors item).run emitter = .ok ((), later)) :
    ∃ body behind mid,
      Adds places floor emitter
        [.insn .cmpCellZero, .branch .jz (placeOf places behind)] mid ∧
      later = { mid with loops := (body, behind) :: emitter.loops } ∧
      mid.places[body.index]? = some (some mid.buffer.size) ∧
      mid.places[behind.index]? = some none ∧ behind.index = emitter.places.size ∧
      ∃ fixup ∈ mid.fixups.toList, fixup.label = behind := by
  cases item with
  | jumpIfZero target =>
    obtain ⟨behind, first, hbehind, h⟩ := run_bind_eq_ok.mp h
    obtain ⟨_, second, htest, h⟩ := run_bind_eq_ok.mp h
    obtain ⟨_, third, hleave, h⟩ := run_bind_eq_ok.mp h
    obtain ⟨body, fourth, hbody, h⟩ := run_bind_eq_ok.mp h
    obtain ⟨_, fifth, hplace, hpush⟩ := run_bind_eq_ok.mp h
    obtain ⟨addsBehind, behindIndex, behindNone, -⟩ := adds_newLabel places hfloor hbehind
    have addsTest : Adds places floor first _ second := adds_insns htest
    obtain ⟨addsLeave, leavePlaces, leaveFixup⟩ :=
      adds_branch places floor hleave
    have hfront := (addsBehind.trans (addsTest.trans addsLeave)).labels
    obtain ⟨addsBody, bodyIndex, -, bodyFixups⟩ :=
      adds_newLabel places (Nat.le_trans hfloor hfront) hbody
    obtain ⟨addsPlace, placeBody, placeOthers, placeFixups⟩ :=
      adds_bind places (by omega : floor ≤ body.index) hplace
    have adds := addsBehind.trans (addsTest.trans (addsLeave.trans (addsBody.trans addsPlace)))
    cases htest
    cases hpush
    -- the label behind the loop was made first, and is still without a place after all the steps
    have hlt : behind.index < third.places.size := by
      rw [leavePlaces]
      exact (Array.getElem?_eq_some_iff.mp behindNone).1
    have hkept := (adds_newLabel places (Nat.le_refl third.places.size) hbody).1.below
    refine ⟨body, behind, fifth, adds, ?_, ?_, ?_, behindIndex, ?_⟩
    · rw [← adds.loops]
    · rw [placeBody, addsPlace.size]
      rfl
    · rw [placeOthers _ (by omega), hkept _ hlt, leavePlaces]
      exact behindNone
    · rw [placeFixups, bodyFixups]
      exact leaveFixup behindNone
  | jumpIfNotZero target => cases hside
  | _ => cases hside

/-- The code at a loop end tests the current cell. The innermost open loop is closed, and the label
behind it gets its place. -/
theorem adds_closing (places : Array (Option Nat)) (floor : Nat) {descriptors : Descriptors}
    {item : Op} (hside : item.side = some .closing)
    (h : (op descriptors item).run emitter = .ok ((), later)) :
    ∃ body behind outer, emitter.loops = (body, behind) :: outer ∧
      (floor ≤ behind.index → Adds places floor { emitter with loops := outer }
        [.insn .cmpCellZero, .branch .jnz (placeOf places body)] later) ∧
      later.places[behind.index]? = some (some later.buffer.size) ∧
      ∀ index, index ≠ behind.index → later.places[index]? = emitter.places[index]? := by
  cases item with
  | jumpIfNotZero target =>
    obtain ⟨loop, first, hpop, h⟩ := run_bind_eq_ok.mp h
    obtain ⟨_, _, hget, hpop⟩ := run_bind_eq_ok.mp hpop
    cases hget
    -- the loop that ends is the innermost one that is open
    cases hloops : emitter.loops with
    | nil =>
      rw [hloops] at hpop
      cases hpop
    | cons innermost outer =>
      rw [hloops] at hpop
      cases hpop
      obtain ⟨_, second, htest, h⟩ := run_bind_eq_ok.mp h
      obtain ⟨_, third, hback, hplace⟩ := run_bind_eq_ok.mp h
      have addsTest : ∀ floor, Adds places floor _ _ second := fun _ => adds_insns htest
      have addsBack : ∀ floor, Adds places floor second _ third :=
        fun _ => (adds_branch _ _ hback).1
      have backPlaces := (adds_branch places floor hback).2.1
      obtain ⟨addsPlace, placeBehind, placeOthers, -⟩ :=
        adds_bind places (Nat.le_refl loop.2.index) hplace
      refine ⟨loop.1, loop.2, outer, rfl, ?_, ?_, ?_⟩
      · intro hfloor
        exact (addsTest floor).trans ((addsBack floor).trans (adds_bind places hfloor hplace).1)
      · rw [placeBehind, addsPlace.size]
        rfl
      · intro index hne
        cases htest
        rw [placeOthers index hne, backPlaces]
  | jumpIfZero target => cases hside
  | _ => cases hside

/-- The label behind each open loop has no place yet, and a branch waits for it. -/
structure Awaits (emitter : Emitter) : Prop where
  /-- The labels of the exits come before all others. -/
  labels : 2 ≤ emitter.places.size
  /-- A branch waits for the label behind each open loop. -/
  waits : ∀ loop ∈ emitter.loops, 2 ≤ loop.2.index ∧
    emitter.places[loop.2.index]? = some none ∧
    ∃ fixup ∈ emitter.fixups.toList, fixup.label = loop.2
  /-- The labels behind the open loops are different. -/
  distinct : emitter.loops.Pairwise fun loop other => loop.2.index ≠ other.2.index

/-- An op opens or closes the loop that it stands on a side of. -/
theorem awaits_of_op {descriptors : Descriptors} {item : Op} (hawaits : Awaits emitter)
    (h : (op descriptors item).run emitter = .ok ((), later)) :
    Bracket.openAfter Op.side emitter.loops.length [item] = some later.loops.length ∧
      Awaits later ∧ Keeps emitter.places later.places ∧
      emitter.places.size ≤ later.places.size := by
  have hlt : ∀ loop ∈ emitter.loops, loop.2.index < emitter.places.size := fun loop hloop =>
    (Array.getElem?_eq_some_iff.mp (hawaits.waits loop hloop).2.1).1
  -- lines that are added leave the labels alone that are older than they
  have hbelow : ∀ {lines mid}, Adds later.places emitter.places.size emitter lines mid →
      ∀ loop ∈ emitter.loops, 2 ≤ loop.2.index ∧ mid.places[loop.2.index]? = some none ∧
        ∃ fixup ∈ mid.fixups.toList, fixup.label = loop.2 := by
    intro lines mid adds loop hloop
    obtain ⟨habove, hnone, fixup, hfixup, hlabel⟩ := hawaits.waits loop hloop
    obtain ⟨more, hmore, -⟩ := adds.fixups
    refine ⟨habove, by rw [adds.below _ (hlt loop hloop), hnone], fixup, ?_, hlabel⟩
    rw [hmore]
    exact List.mem_append_left _ hfixup
  cases hside : item.side with
  | none =>
    obtain ⟨adds, -⟩ := adds_op later.places hside (Nat.le_refl _) (fun _ _ => id) h
    refine ⟨?_, ⟨Nat.le_trans hawaits.labels adds.labels, ?_, ?_⟩, adds.keeps, adds.labels⟩
    · simp only [Bracket.openAfter, hside, adds.loops]
    · rw [adds.loops]
      exact hbelow adds
    · rw [adds.loops]
      exact hawaits.distinct
  | some bracket =>
    cases bracket with
    | opening =>
      obtain ⟨body, behind, mid, adds, rfl, -, hnone, hbehind, hfixup⟩ :=
        adds_opening later.places hside (Nat.le_refl _) h
      refine ⟨?_, ⟨Nat.le_trans hawaits.labels adds.labels, ?_, ?_⟩, adds.keeps, adds.labels⟩
      · simp only [Bracket.openAfter, hside, List.length_cons]
      · rintro loop hloop
        rcases List.mem_cons.mp hloop with rfl | hloop
        · exact ⟨hbehind.symm ▸ hawaits.labels, hnone, hfixup⟩
        · exact hbelow adds loop hloop
      · refine List.pairwise_cons.mpr ⟨fun loop hloop => ?_, hawaits.distinct⟩
        have hindex := hlt loop hloop
        show behind.index ≠ loop.2.index
        omega
    | closing =>
      obtain ⟨body, behind, outer, hloops, hadds, -, hothers⟩ :=
        adds_closing later.places 0 hside h
      have adds := hadds (Nat.zero_le _)
      have hdistinct := hawaits.distinct
      rw [hloops, List.pairwise_cons] at hdistinct
      refine ⟨?_, ⟨Nat.le_trans hawaits.labels adds.labels, ?_, ?_⟩, adds.keeps, adds.labels⟩
      · simp only [Bracket.openAfter, hside, hloops, List.length_cons, adds.loops]
      · rw [adds.loops]
        intro loop hloop
        obtain ⟨habove, hnone, fixup, hfixup, hlabel⟩ :=
          hawaits.waits loop (hloops ▸ List.mem_cons_of_mem _ hloop)
        obtain ⟨more, hmore, -⟩ := adds.fixups
        refine ⟨habove, ?_, fixup, ?_, hlabel⟩
        · rw [hothers _ (hdistinct.1 loop hloop).symm, hnone]
        · rw [hmore]
          exact List.mem_append_left _ hfixup
      · rw [adds.loops]
        exact hdistinct.2

/-- Ops open and close the loops that they stand on a side of. -/
theorem awaits_of_forM {descriptors : Descriptors} {items : List Op} (hawaits : Awaits emitter)
    (h : (items.forM (op descriptors)).run emitter = .ok ((), later)) :
    Bracket.openAfter Op.side emitter.loops.length items = some later.loops.length ∧
      Awaits later ∧ Keeps emitter.places later.places ∧
      emitter.places.size ≤ later.places.size := by
  induction items generalizing emitter with
  | nil =>
    cases h
    exact ⟨rfl, hawaits, fun _ _ => id, Nat.le_refl _⟩
  | cons item items ih =>
    obtain ⟨_, mid, hitem, hitems⟩ := run_bind_eq_ok.mp h
    obtain ⟨hopen, hmid, hkeeps, hlabels⟩ := awaits_of_op hawaits hitem
    obtain ⟨hopen', hlater, hkeeps', hlabels'⟩ := ih hmid hitems
    refine ⟨?_, hlater, hkeeps.trans hkeeps', Nat.le_trans hlabels hlabels'⟩
    rw [← List.singleton_append, Bracket.openAfter_append, hopen]
    exact hopen'

/-- Fields are filled in only if each label has its place. -/
theorem exists_place_of_foldlM {fixups : List Fixup} {fixup : Fixup} {buffer filled : CodeBuffer}
    (h : fixups.foldlM (resolve places) buffer = .ok filled) (hmem : fixup ∈ fixups) :
    ∃ target, places[fixup.label.index]? = some (some target) := by
  induction fixups generalizing buffer with
  | nil => cases hmem
  | cons first fixups ih =>
    rw [List.foldlM_cons] at h
    obtain ⟨next, hresolve, hrest⟩ := bind_eq_ok.mp h
    rcases List.mem_cons.mp hmem with rfl | hmem
    · obtain ⟨target, -, hplace, -⟩ := resolve_eq_ok.mp hresolve
      exact ⟨target, hplace⟩
    · exact ih hrest hmem

/-- The code of a loop is added with the test in front of its body, the body and the test behind
it, if the labels of the loop are at the body and behind the loop. -/
theorem adds_loop {second third : Emitter} {loops : List (Label × Label)} {body behind : Label}
    (addsStart : Adds places floor emitter
      [.insn .cmpCellZero, .branch .jz (placeOf places behind)] mid)
    (addsBody : Adds places floor { mid with loops := loops } lines second)
    (addsEnd : Adds places floor { second with loops := emitter.loops }
      [.insn .cmpCellZero, .branch .jnz (placeOf places body)] third)
    (hbody : placeOf places body = mid.buffer.size)
    (hbehind : placeOf places behind = third.buffer.size) :
    Adds places floor emitter (loopLines emitter.buffer.size lines) third := by
  have hmid : mid.buffer.size = emitter.buffer.size + 11 := addsStart.size
  have hsecond : second.buffer.size = mid.buffer.size + width lines := addsBody.size
  have hthird : third.buffer.size = second.buffer.size + 11 := addsEnd.size
  have hinner : Adds places floor mid lines { second with loops := emitter.loops } := by
    have adds := addsBody.withLoops emitter.loops
    rwa [← addsStart.loops] at adds ⊢
  have adds := addsStart.trans (hinner.trans addsEnd)
  rw [hbody, hmid, hbehind, hthird, hsecond, hmid] at adds
  rw [loopLines, unlessZero, width_append]
  exact adds

/-- The code of properly nested ops is the lines of their block. -/
theorem adds_of_spells {descriptors : Descriptors} {items : List Op} {block : Block Op}
    (hspells : Block.Spells Op.side items block) (hawaits : Awaits emitter)
    (hfloor : floor ≤ emitter.places.size) (hkeeps : Keeps later.places places)
    (h : (items.forM (op descriptors)).run emitter = .ok ((), later)) :
    Adds places floor emitter (block.lines descriptors (exitsIn places) emitter.buffer.size) later ∧
      block.All Op.InReach := by
  induction hspells generalizing emitter later with
  | done =>
    cases h
    exact ⟨Adds.refl _, trivial⟩
  | op hside _ ih =>
    obtain ⟨_, mid, hitem, hitems⟩ := run_bind_eq_ok.mp h
    obtain ⟨-, hmid, -, hlabels⟩ := awaits_of_op hawaits hitem
    obtain ⟨-, -, hrest, -⟩ := awaits_of_forM hmid hitems
    obtain ⟨adds, hreach⟩ := adds_op places hside hfloor (hrest.trans hkeeps) hitem
    obtain ⟨adds', hreach'⟩ := ih hmid (Nat.le_trans hfloor hlabels) hkeeps hitems
    rw [adds.size] at adds'
    exact ⟨adds.trans adds', hreach, hreach'⟩
  | @loop opening closing inner items body rest hopening hclosing _ _ ihbody ihrest =>
    obtain ⟨_, first, hstart, h⟩ := run_bind_eq_ok.mp h
    rw [List.forM_eq_forM, List.forM_append] at h
    obtain ⟨_, second, hinner, h⟩ := run_bind_eq_ok.mp h
    rw [List.forM_cons] at h
    obtain ⟨_, third, hend, hitems⟩ := run_bind_eq_ok.mp h
    obtain ⟨-, hfirst, -, hlabels⟩ := awaits_of_op hawaits hstart
    obtain ⟨-, hsecond, -, hlabels'⟩ := awaits_of_forM hfirst hinner
    obtain ⟨-, hthird, hkeeps', hlabels''⟩ := awaits_of_op hsecond hend
    obtain ⟨-, -, hrest, -⟩ := awaits_of_forM hthird hitems
    obtain ⟨bodyLabel, behind, mid, addsStart, rfl, placeBody, -, behindIndex, -⟩ :=
      adds_opening places hopening hfloor hstart
    obtain ⟨addsBody, hreach⟩ :=
      ihbody hfirst (Nat.le_trans hfloor hlabels) (hkeeps'.trans (hrest.trans hkeeps)) hinner
    obtain ⟨_, _, outer, hloops, addsEnd, placeBehind, -⟩ :=
      adds_closing places floor hclosing hend
    obtain ⟨addsRest, hreach'⟩ := ihrest hthird
      (Nat.le_trans hfloor (Nat.le_trans hlabels (Nat.le_trans hlabels' hlabels''))) hkeeps hitems
    -- the loop that ends is the one that was started
    rw [addsBody.loops] at hloops
    cases hloops
    have hbody := (addsBody.keeps.trans (hkeeps'.trans (hrest.trans hkeeps))).placeOf_eq placeBody
    have hbehind := (hrest.trans hkeeps).placeOf_eq placeBehind
    have adds := adds_loop addsStart addsBody (addsEnd (by omega)) hbody hbehind
    rw [adds.size] at addsRest
    refine ⟨?_, hreach, hreach'⟩
    have hmid : mid.buffer.size = emitter.buffer.size + 11 := addsStart.size
    rw [hmid] at adds addsRest
    exact adds.trans addsRest

/-- Filling in all fields keeps everything but the buffer. -/
theorem of_run_resolveAll (h : resolveAll.run emitter = .ok ((), later)) :
    image emitter.places emitter = .ok later.buffer := by
  obtain ⟨_, _, hget, h⟩ := run_bind_eq_ok.mp h
  cases hget
  cases hresolved : resolved emitter with
  | error error =>
    rw [hresolved] at h
    cases h
  | ok buffer =>
    rw [hresolved] at h
    cases h
    exact hresolved

/-- Emits the code of a stream, in which the branches that wait are not filled in. -/
def draft (descriptors : Descriptors) (ops : Array Op) : Emit Unit := do
  insns prologue
  ops.toList.forM (op descriptors)
  Emit.bind exit
  insns epilogue
  Emit.bind fault
  insns [.movRbxRcx]
  branch .jmp exit

/-- The code of a stream is its draft with all branches filled in. -/
theorem stream_eq (descriptors : Descriptors) (ops : Array Op) :
    stream descriptors ops = (do draft descriptors ops; resolveAll) := by
  simp only [stream, draft, bind_assoc]

/-- No loop is open if all branches can be filled in and only the exits have got places since: the
label behind an open loop would have none. -/
theorem Awaits.loops_eq_nil {final : Emitter} {buffer : CodeBuffer} {more : List Fixup}
    (hawaits : Awaits emitter) (himage : image final.places final = .ok buffer)
    (hfixups : final.fixups.toList = emitter.fixups.toList ++ more)
    (hplaces : ∀ index, 2 ≤ index → final.places[index]? = emitter.places[index]?) :
    emitter.loops = [] := by
  rw [List.eq_nil_iff_forall_not_mem]
  intro loop hloop
  obtain ⟨habove, hnone, fixup, hfixup, hlabel⟩ := hawaits.waits loop hloop
  obtain ⟨target, htarget⟩ :=
    exists_place_of_foldlM himage (by rw [hfixups]; exact List.mem_append_left _ hfixup)
  rw [hlabel, hplaces _ habove, hnone] at htarget
  cases htarget

/-- A draft in which all branches can be filled in has the lines of the block that the ops
spell. -/
theorem adds_draft {descriptors : Descriptors} {ops : Array Op} {final : Emitter}
    {buffer : CodeBuffer} (h : (draft descriptors ops).run start = .ok ((), final))
    (himage : image final.places final = .ok buffer) :
    ∃ block, Block.ofOps ops = some block ∧ block.All Op.InReach ∧
      Adds final.places 0 start (callLines descriptors block) final := by
  -- the code is generated in seven steps
  obtain ⟨_, entered, hprologue, h⟩ := run_bind_eq_ok.mp h
  obtain ⟨_, body, hops, h⟩ := run_bind_eq_ok.mp h
  obtain ⟨_, placed, hexit, h⟩ := run_bind_eq_ok.mp h
  obtain ⟨_, left, hepilogue, h⟩ := run_bind_eq_ok.mp h
  obtain ⟨_, placed', hfault, h⟩ := run_bind_eq_ok.mp h
  obtain ⟨_, moved, hmove, hjump⟩ := run_bind_eq_ok.mp h
  have hentered : Awaits entered := by
    cases hprologue
    exact ⟨Nat.le_refl _, fun loop hloop => absurd hloop List.not_mem_nil, List.Pairwise.nil⟩
  obtain ⟨hopen, hbody, -, -⟩ := awaits_of_forM hentered hops
  have addsPrologue : Adds final.places 0 start _ entered := adds_insns hprologue
  obtain ⟨addsExit, placeExit, othersExit, -⟩ :=
    adds_bind final.places (Nat.zero_le _) hexit
  have addsEpilogue : Adds final.places 0 placed _ left := adds_insns hepilogue
  obtain ⟨addsFault, placeFault, othersFault, -⟩ :=
    adds_bind final.places (Nat.zero_le _) hfault
  have addsMove : Adds final.places 0 placed' _ moved := adds_insns hmove
  obtain ⟨addsJump, jumpPlaces, -⟩ := adds_branch final.places 0 hjump
  have addsLast := addsMove.trans addsJump
  have addsEnd := addsExit.trans (addsEpilogue.trans (addsFault.trans addsLast))
  have hplaces : ∀ index, 2 ≤ index → final.places[index]? = body.places[index]? := by
    intro index hindex
    have hne : index ≠ exit.index := by
      show index ≠ 0
      omega
    have hne' : index ≠ fault.index := by
      show index ≠ 1
      omega
    cases hepilogue
    cases hmove
    rw [jumpPlaces, othersFault _ hne', othersExit _ hne]
  obtain ⟨more, hmore, -⟩ := addsEnd.fixups
  have hclosed := hbody.loops_eq_nil himage hmore hplaces
  have hzero : Bracket.openAfter Op.side 0 ops.toList = some 0 := by
    rw [hclosed] at hopen
    cases hprologue
    exact hopen
  obtain ⟨block, hblock⟩ := Bracket.exists_ofItems?_of_openAfter hzero
  obtain ⟨addsBody, hreach⟩ := adds_of_spells (Block.spells_of_ofItems? hblock) hentered
    (Nat.zero_le _) addsEnd.keeps hops
  have henteredSize : entered.buffer.size = 8 := addsPrologue.size
  rw [henteredSize] at addsBody
  have hbodySize := addsBody.size
  rw [henteredSize, width_lines descriptors _ ⟨0, 0⟩ 8 8] at hbodySize
  -- the exit and the fault are where the listing has them, since the code before them is as long
  have hplaceExit : placeOf final.places exit = (exitsOf descriptors block).exit := by
    rw [(addsEpilogue.trans (addsFault.trans addsLast)).keeps.placeOf_eq placeExit]
    exact hbodySize
  have hplaceFault : placeOf final.places fault = (exitsOf descriptors block).fault := by
    rw [addsLast.keeps.placeOf_eq placeFault, addsEpilogue.size, addsExit.size, hbodySize]
    rfl
  have hexits : exitsIn final.places = exitsOf descriptors block := by
    rw [exitsIn, hplaceExit, hplaceFault]
  have adds := addsPrologue.trans (addsBody.trans addsEnd)
  rw [hexits, hplaceExit] at adds
  refine ⟨block, hblock, hreach, ?_⟩
  rw [callLines, List.append_assoc, List.append_assoc]
  exact adds

end Emit

open Emit X86

/-- Generated code is a draft with its branches filled in. -/
theorem exists_draft_of_templateCode {descriptors : Descriptors} {ops : Array Op}
    {bytes : Array UInt8} (h : templateCode descriptors ops = .ok bytes) :
    ∃ final, (draft descriptors ops).run start = .ok ((), final) ∧
      resolved final = .ok ⟨bytes⟩ := by
  unfold templateCode at h
  split at h
  · next finished hstream =>
    cases h
    rw [stream_eq] at hstream
    obtain ⟨_, final, hdraft, hresolve⟩ := run_bind_eq_ok.mp hstream
    exact ⟨final, hdraft, of_run_resolveAll hresolve⟩
  · cases h

/-- The generated code is the listing of the block that the ops spell. Its displacements all
fit. -/
theorem listing_of_templateCode {descriptors : Descriptors} {ops : Array Op} {bytes : Array UInt8}
    (h : templateCode descriptors ops = .ok bytes) :
    ∃ block insns, Block.ofOps ops = some block ∧ block.All Op.InReach ∧
      listing descriptors block = .ok insns ∧ bytes.toList = assemble insns := by
  obtain ⟨final, hdraft, hresolved⟩ := exists_draft_of_templateCode h
  obtain ⟨block, hblock, hreach, adds⟩ := adds_draft hdraft hresolved
  obtain ⟨before, insns, hbefore, hinsns, hbuffer⟩ :=
    adds.code (fun _ _ => id) (fun fixup hfixup => absurd hfixup List.not_mem_nil) hresolved
  cases hbefore
  refine ⟨block, insns, hblock, hreach, hinsns, ?_⟩
  show (CodeBuffer.mk bytes).bytes.toList = _
  rw [hbuffer, CodeBuffer.toList_bytes_emit]
  rfl

/-- What the template generator delivers is the code of ops that are properly nested. -/
theorem TemplateCode.generate_eq_ok {descriptors : Descriptors} {ops : Array Op}
    {code : TemplateCode} :
    TemplateCode.generate descriptors ops = .ok code ↔
      templateCode descriptors ops = .ok code.bytes ∧ Block.ofOps ops = some code.block ∧
        code.descriptors = descriptors := by
  rw [generate, bind_eq_ok]
  constructor
  · rintro ⟨bytes, hbytes, hblock⟩
    split at hblock
    · next block hofOps =>
      cases hblock
      exact ⟨hbytes, hofOps, rfl⟩
    · cases hblock
  · rintro ⟨hbytes, hblock, rfl⟩
    exact ⟨code.bytes, hbytes, by rw [hblock]; rfl⟩

end TapeLang

import TapeLang.Proofs.Native.Stages
import TapeLang.Proofs.Unmatched

/-!
# Code is generated

How far the template generator comes. The stage at a position of a stream is read off from the ops
before it: besides the exits, the labels behind the open loops wait. Code generation stops at an op
whose displacement is out of reach, and at a jump back where no loop is open. If it stops nowhere,
and no loop is open at the end, the exits get their places, and then all branches can be filled in.

## Main definitions

* `codeOffset`, `firstLabel`: where the code of an op begins, and the first label made for it.
* `RefusedAt`: code generation stops at a position.
* `Emit.stageAt`: the stage at a position of a stream.

## Main results

* `Emit.advances_take`: the code of the ops before the first position where code generation stops
  can be generated.
* `Emit.advances_stream`: the whole code can be generated if code generation stops nowhere.
* `exists_templateCode`: the code of properly nested ops whose displacements fit is generated. It is
  as long as its ops say.
-/

namespace TapeLang

open X86

/-- The offset of the code of the op at an index. Behind the last op it is the offset of the
exit. -/
def codeOffset (ops : Array Op) (index : Nat) : Nat :=
  8 + codeSize (ops.toList.take index)

/-- The number of the first label that is made for the op at an index. The exits have the first two
labels. -/
def firstLabel (ops : Array Op) (index : Nat) : Nat :=
  2 + labelCount (ops.toList.take index)

/-- The branches of ops in a row that wait for their labels when they are emitted. -/
def fixupsFrom (offset label : Nat) : List Op → List Fixup
  | [] => []
  | op :: ops =>
    op.fixups offset label ++ fixupsFrom (offset + op.codeSize) (label + op.labelCount) ops

/-- Code generation stops at an op whose displacement is out of reach, and at a jump back that ends
no loop. -/
def RefusedAt (ops : Array Op) (position : Nat) : Prop :=
  ∃ op, ops[position]? = some op ∧
    (¬ op.InReach ∨ op.side = some .closing ∧ ¬ Bracket.Paired Op.side ops position)

section Offsets

variable {ops : Array Op} {index later : Nat} {op : Op}

/-- The ops up to the next one. -/
theorem toList_take_succ (h : ops[index]? = some op) :
    ops.toList.take (index + 1) = ops.toList.take index ++ [op] := by
  rw [List.take_add_one, Array.getElem?_toList, h, Option.toList_some]

/-- The ops before and after an op. -/
theorem toList_eq_take_append (h : ops[index]? = some op) :
    ops.toList = ops.toList.take index ++ op :: ops.toList.drop (index + 1) := by
  obtain ⟨hlt, rfl⟩ := Array.getElem?_eq_some_iff.mp h
  rw [← Array.getElem_toList, ← List.drop_eq_getElem_cons, List.take_append_drop]

/-- The next op has its code behind that of an op. -/
theorem codeOffset_succ (h : ops[index]? = some op) :
    codeOffset ops (index + 1) = codeOffset ops index + op.codeSize := by
  rw [codeOffset, codeOffset, toList_take_succ h, codeSize_append, codeSize_cons, codeSize_nil,
    Nat.add_zero, Nat.add_assoc]

/-- The labels of the next op come after those of an op. -/
theorem firstLabel_succ (h : ops[index]? = some op) :
    firstLabel ops (index + 1) = firstLabel ops index + op.labelCount := by
  rw [firstLabel, firstLabel, toList_take_succ h, labelCount_append, labelCount_cons,
    labelCount_nil, Nat.add_zero, Nat.add_assoc]

/-- No op has its code behind that of all ops. -/
theorem codeOffset_le (ops : Array Op) (index : Nat) :
    codeOffset ops index ≤ 8 + codeSize ops.toList := by
  obtain ⟨more, hmore⟩ := List.take_prefix index ops.toList
  rw [codeOffset, ← congrArg codeSize hmore, codeSize_append]
  omega

/-- Behind the last op is the code of all ops. -/
theorem codeOffset_size (ops : Array Op) : codeOffset ops ops.size = 8 + codeSize ops.toList := by
  rw [codeOffset, ← Array.length_toList, List.take_length]

/-- Later ops have later labels. -/
theorem firstLabel_mono (h : index ≤ later) : firstLabel ops index ≤ firstLabel ops later := by
  obtain ⟨more, hmore⟩ := List.take_prefix_take_left (l := ops.toList) h
  rw [firstLabel, firstLabel, ← hmore, labelCount_append]
  omega

/-- A loop start makes two labels. -/
theorem firstLabel_add_two_le (h : Bracket.sideAt Op.side ops index = some .opening)
    (hlt : index < later) : firstLabel ops index + 2 ≤ firstLabel ops later := by
  obtain ⟨op, hop, hside⟩ := Option.bind_eq_some_iff.mp h
  obtain ⟨target, rfl⟩ := Op.exists_of_opening hside
  have hnext := firstLabel_succ hop
  exact hnext ▸ firstLabel_mono hlt

end Offsets

section Fixups

variable {offset label : Nat}

/-- The branches of ops that wait come one after another. -/
theorem fixupsFrom_append (ops more : List Op) :
    fixupsFrom offset label (ops ++ more) = fixupsFrom offset label ops ++
      fixupsFrom (offset + codeSize ops) (label + labelCount ops) more := by
  induction ops generalizing offset label with
  | nil => rfl
  | cons op ops ih =>
    rw [List.cons_append, fixupsFrom, fixupsFrom, ih, List.append_assoc, codeSize_cons,
      labelCount_cons, Nat.add_assoc, Nat.add_assoc]

/-- The fields of the branches of an op that wait are in its code, and their labels have been
made. -/
theorem Op.of_mem_fixups {op : Op} {fixup : Fixup} (hlabel : 2 ≤ label)
    (h : fixup ∈ op.fixups offset label) : fixup.offset + 4 ≤ offset + op.codeSize ∧
      fixup.label.index < label + op.labelCount := by
  cases op with
  | scanUntilZero step | transferAndZero step =>
    rcases List.mem_pair.mp h with rfl | rfl
    all_goals
      simp only [codeSize, labelCount, Emit.exit, Emit.fault]
      omega
  | forward count | backward count | jumpIfZero target =>
    obtain rfl := List.mem_singleton.mp h
    simp only [codeSize, labelCount, Emit.exit]
    omega
  | _ => cases h

/-- The fields of the branches of ops that wait are in their code, and their labels have been
made. -/
theorem of_mem_fixupsFrom {ops : List Op} {fixup : Fixup} (hlabel : 2 ≤ label)
    (h : fixup ∈ fixupsFrom offset label ops) : fixup.offset + 4 ≤ offset + codeSize ops ∧
      fixup.label.index < label + labelCount ops := by
  induction ops generalizing offset label with
  | nil => cases h
  | cons op ops ih =>
    rw [codeSize_cons, labelCount_cons]
    rcases List.mem_append.mp h with h | h
    · have hop := Op.of_mem_fixups hlabel h
      omega
    · have hops := ih (Nat.le_trans hlabel (Nat.le_add_right _ _)) h
      omega

end Fixups

namespace Emit

section Positions

variable {limit : Nat} {ops : Array Op} {position : Nat} {loops : List Nat}

/-- The labels of the loop that starts at a position: that of the body, and the one behind the
loop. -/
def loopLabels (ops : Array Op) (position : Nat) : Label × Label :=
  (⟨firstLabel ops position + 1⟩, ⟨firstLabel ops position⟩)

/-- The labels behind loops that start at the positions listed. -/
def behindLoops (ops : Array Op) (loops : List Nat) : List Label :=
  loops.map fun start => (loopLabels ops start).2

/-- No label behind a loop is an exit. -/
theorem two_le_of_mem_behindLoops {label : Label} (h : label ∈ behindLoops ops loops) :
    2 ≤ label.index := by
  obtain ⟨start, -, rfl⟩ := List.mem_map.mp h
  exact Nat.le_add_right _ _

/-- The stage at a position of a stream where the loops are open that start at the positions
listed. -/
def stageAt (ops : Array Op) (position : Nat) (loops : List Nat) : Stage where
  size := codeOffset ops position
  labels := firstLabel ops position
  waiting := behindLoops ops loops ++ [exit, fault]
  fixups := fixupsFrom 8 2 (ops.toList.take position)
  loops := loops.map (loopLabels ops)

/-- The stage at the next position. -/
theorem stageAt_succ {item : Op} (hget : ops[position]? = some item) :
    stageAt ops (position + 1) loops = (stageAt ops position loops).after item := by
  have hfixups : fixupsFrom 8 2 (ops.toList.take (position + 1)) =
      fixupsFrom 8 2 (ops.toList.take position) ++
        item.fixups (codeOffset ops position) (firstLabel ops position) := by
    rw [toList_take_succ hget, fixupsFrom_append, fixupsFrom, fixupsFrom, List.append_nil]
    rfl
  rw [stageAt, codeOffset_succ hget, firstLabel_succ hget, hfixups]
  rfl

/-- The exits have the first two labels. -/
theorem index_lt_two {label : Label} (h : label ∈ [exit, fault]) : label.index < 2 := by
  rcases List.mem_pair.mp h with rfl | rfl <;> decide

/-- At any position the exits wait, and all labels that wait have been made. -/
theorem ready_stageAt (hopen : Bracket.OpenAt Op.side ops position loops) :
    (stageAt ops position loops).Ready where
  exit_mem := List.mem_append_right _ List.mem_cons_self
  fault_mem := List.mem_append_right _ (List.mem_cons_of_mem _ List.mem_cons_self)
  made := by
    intro label hlabel
    rcases List.mem_append.mp hlabel with hbehind | hexit
    · obtain ⟨start, hstart, rfl⟩ := List.mem_map.mp hbehind
      obtain ⟨hlt, hopening⟩ := hopen.of_mem hstart
      exact Nat.lt_of_lt_of_le (by simp [loopLabels]) (firstLabel_add_two_le hopening hlt)
    · exact Nat.lt_of_lt_of_le (index_lt_two hexit) (Nat.le_add_right _ _)

/-- The label of the body of an open loop has been made, and has its place. -/
theorem body_not_mem_waiting {start : Nat} (hopen : Bracket.OpenAt Op.side ops position loops)
    (hstart : start ∈ loops) :
    (loopLabels ops start).1.index < (stageAt ops position loops).labels ∧
      (loopLabels ops start).1 ∉ (stageAt ops position loops).waiting := by
  obtain ⟨hlt, hopening⟩ := hopen.of_mem hstart
  refine ⟨firstLabel_add_two_le hopening hlt, fun hwaiting => ?_⟩
  rcases List.mem_append.mp hwaiting with hbehind | hexit
  · -- the labels of two loops are apart, whichever of them comes first
    obtain ⟨other, hother, hequal⟩ := List.mem_map.mp hbehind
    have hindex : firstLabel ops other = firstLabel ops start + 1 := congrArg Label.index hequal
    rcases Nat.lt_or_ge start other with hbefore | hafter
    · have hapart := firstLabel_add_two_le hopening hbefore
      omega
    · have hmono := @firstLabel_mono ops _ _ hafter
      omega
  · have hindex : firstLabel ops start + 1 < 2 := index_lt_two hexit
    rw [firstLabel] at hindex
    omega

/-- The code of an op where code generation does not stop can be generated. Its loop is opened or
closed. -/
theorem advances_stageAt {descriptors : Descriptors} {item : Op}
    (hopen : Bracket.OpenAt Op.side ops position loops) (hget : ops[position]? = some item)
    (hrefused : ¬ RefusedAt ops position) (hlimit : 8 + codeSize ops.toList ≤ limit) :
    ∃ loops', Bracket.OpenAt Op.side ops (position + 1) loops' ∧
      Advances limit (op descriptors item) (stageAt ops position loops) ()
        (stageAt ops (position + 1) loops') := by
  have hsideAt : Bracket.sideAt Op.side ops position = item.side := Bracket.sideAt_of_get hget
  have hreach : item.InReach := Classical.byContradiction fun hreach =>
    hrefused ⟨item, hget, .inl hreach⟩
  have hfits : codeOffset ops position + item.codeSize ≤ limit := by
    rw [← codeOffset_succ hget]
    exact Nat.le_trans (codeOffset_le ops _) hlimit
  have hready := ready_stageAt hopen
  cases hside : item.side with
  | none =>
    rw [hside] at hsideAt
    refine ⟨loops, hopen.next (Array.getElem?_eq_some_iff.mp hget).1 hsideAt, ?_⟩
    rw [stageAt_succ hget]
    exact advances_op hside hreach hready hfits
  | some bracket =>
    rw [hside] at hsideAt
    cases bracket with
    | opening =>
      refine ⟨position :: loops, hopen.opening hsideAt, ?_⟩
      rw [stageAt_succ hget]
      exact advances_opening hside
    | closing =>
      cases loops with
      | nil => exact absurd ⟨item, hget, .inr ⟨hside, hopen.not_paired_closing hsideAt⟩⟩ hrefused
      | cons innermost outer =>
        refine ⟨outer, hopen.closing hsideAt, ?_⟩
        obtain ⟨hbody, hplaced⟩ := body_not_mem_waiting hopen List.mem_cons_self
        rw [stageAt_succ hget]
        exact advances_closing hside rfl rfl hbody hplaced hfits

/-- The code of the ops before a position can be generated if code generation does not stop before
it. -/
theorem advances_take {descriptors : Descriptors} (hposition : position ≤ ops.size)
    (hrefused : ∀ earlier < position, ¬ RefusedAt ops earlier)
    (hlimit : 8 + codeSize ops.toList ≤ limit) :
    ∃ loops, Bracket.OpenAt Op.side ops position loops ∧
      Advances limit (forM (ops.toList.take position) (op descriptors)) (stageAt ops 0 []) ()
        (stageAt ops position loops) := by
  -- the labels, loops and offsets after each op are those of its stage
  induction position with
  | zero => exact ⟨[], Bracket.openBetween_self 0 0, .pure ()⟩
  | succ position ih =>
    obtain ⟨loops, hopen, hbefore⟩ := ih (Nat.le_of_lt hposition) fun earlier hlt =>
      hrefused earlier (Nat.lt_succ_of_lt hlt)
    have hget := Array.getElem?_eq_getElem hposition
    obtain ⟨loops', hopen', hop⟩ :=
      advances_stageAt hopen hget (hrefused position (Nat.lt_succ_self _)) hlimit
    refine ⟨loops', hopen', ?_⟩
    rw [toList_take_succ hget, List.forM_append, List.forM_cons]
    exact .bind hbefore (.bind hop (.pure ()))

/-! ## The whole stream -/

/-- The stage after all that is emitted for a stream at whose end loops are open. -/
def final (ops : Array Op) (loops : List Nat) : Stage :=
  { (stageAt ops ops.size loops).grow 15 with waiting := behindLoops ops loops }

/-- The code of a stream and what stands around it can be generated if code generation does not stop
at an op. The exits get their places. -/
theorem advances_draft {descriptors : Descriptors} (hrefused : ∀ position, ¬ RefusedAt ops position)
    (hlimit : 23 + codeSize ops.toList ≤ limit) :
    ∃ loops, Bracket.OpenAt Op.side ops ops.size loops ∧
      Advances limit (draft descriptors ops) initial () (final ops loops) := by
  obtain ⟨loops, hopen, hops⟩ := @advances_take limit ops ops.size descriptors (Nat.le_refl _)
    (fun position _ => hrefused position) (by omega)
  rw [← Array.length_toList, List.take_length, Array.length_toList] at hops
  refine ⟨loops, hopen, ?_⟩
  -- 8 bytes stand in front of the ops, and 15 behind them
  refine .bind (advances_insns 8 rfl) (.bind hops ?_)
  -- besides the exits the labels behind the open loops wait after the ops
  refine .bind (advances_bind List.perm_middle) (.bind (advances_insns 7 rfl) ?_)
  refine .bind (advances_bind (List.perm_append_singleton _ _)) (.bind (advances_insns 3 rfl) ?_)
  refine advances_branch_back 5 rfl (Nat.lt_of_lt_of_le Nat.two_pos (Nat.le_add_right _ _)) ?_ ?_
  · exact fun hexit => absurd (two_le_of_mem_behindLoops hexit) (by decide)
  · have hsize := codeOffset_size ops
    show codeOffset ops ops.size + 7 + 3 + 5 ≤ limit
    omega

/-- The branches of a stream that wait are in its code, and their labels have been made. -/
theorem of_mem_fixups_final {fixup : Fixup} (h : fixup ∈ (final ops loops).fixups) :
    fixup.offset + 4 ≤ (final ops loops).size ∧ fixup.label.index < (final ops loops).labels := by
  rw [final, stageAt] at h
  obtain ⟨hoffset, hlabel⟩ := of_mem_fixupsFrom (Nat.le_refl 2) h
  exact ⟨Nat.le_trans hoffset (Nat.le_add_right _ _), hlabel⟩

/-- The whole code can be generated if code generation does not stop at an op and no loop is open at
the end. -/
theorem advances_stream {descriptors : Descriptors}
    (hrefused : ∀ position, ¬ RefusedAt ops position)
    (hopening : ∀ position, Bracket.sideAt Op.side ops position = some .opening →
      Bracket.Paired Op.side ops position) (hlimit : 23 + codeSize ops.toList ≤ limit) :
    Advances limit (stream descriptors ops) initial () { final ops [] with fixups := [] } := by
  obtain ⟨loops, hopen, hdraft⟩ := @advances_draft limit ops descriptors hrefused hlimit
  have hsize := codeOffset_size ops
  obtain rfl | ⟨inner, outermost, rfl⟩ := List.eq_nil_or_concat' loops
  · rw [stream_eq]
    refine .bind hdraft (advances_resolveAll (fun fixup hfixup => ?_) ?_)
    · obtain ⟨hoffset, hlabel⟩ := of_mem_fixups_final hfixup
      exact ⟨hoffset, hlabel, List.not_mem_nil⟩
    · show codeOffset ops ops.size + 15 ≤ limit
      omega
  · -- the outermost loop would have no partner
    obtain ⟨-, hside, -⟩ := hopen.outermost
    exact absurd (hopening _ hside) hopen.not_paired_outermost

end Positions

end Emit

open Emit

/-- Code generation does not stop at an op of properly nested ops whose displacements fit. -/
theorem not_refusedAt {ops : Array Op} {block : Block Op} (hblock : Block.ofOps ops = some block)
    (hreach : ∀ op ∈ ops.toList, op.InReach) (position : Nat) : ¬ RefusedAt ops position := by
  rintro ⟨op, hget, hout | ⟨hclosing, hunpaired⟩⟩
  · exact hout (hreach op (Array.mem_toList_iff.mpr (Array.mem_of_getElem? hget)))
  · have hside : Bracket.sideAt Op.side ops position = some .closing :=
      (Bracket.sideAt_of_get hget).trans hclosing
    exact hunpaired (Block.paired_of_ofOps hblock (by simp [hside]))

/-- The code of properly nested ops whose displacements fit is generated, if it is short. It is as
long as its ops say. -/
theorem exists_templateCode {descriptors : Descriptors} {ops : Array Op} {block : Block Op}
    (hblock : Block.ofOps ops = some block) (hreach : ∀ op ∈ ops.toList, op.InReach)
    (hsize : 23 + codeSize ops.toList < 0x80000000) :
    ∃ bytes, templateCode descriptors ops = .ok bytes ∧ bytes.size = 23 + codeSize ops.toList := by
  have hstream := @advances_stream _ ops descriptors (not_refusedAt hblock hreach)
    (fun _ hside => Block.paired_of_ofOps hblock (by simp [hside])) (Nat.le_refl _)
  rcases hstream start at_start with ⟨finished, hrun, hat⟩ | ⟨hlong, -⟩
  · refine ⟨finished.buffer.bytes, by rw [templateCode, hrun], ?_⟩
    have hlength : finished.buffer.size = codeOffset ops ops.size + 15 := hat.size
    rw [codeOffset_size] at hlength
    exact hlength.trans (by omega)
  · exact absurd hsize (Nat.not_lt_of_le hlong)

end TapeLang

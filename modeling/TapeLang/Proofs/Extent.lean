import TapeLang.Proofs.Loops
import TapeLang.Proofs.Reduction

/-!
# How far the ops of a program reach

The ops of a stream carry arguments of any size. Those of a compiled stream come from the runs of a
program, and a run is no longer than the program. Ops that replace a loop take their argument from
one of the ops of its body, so they reach no further.

## Main definitions

* `Op.Within`: the argument of an op is not zero, and no larger than a bound.

## Main results

* `Block.all_reduce_of_specialize`: what holds of all ops of a block and is handed on to
  replacements holds of all ops after loops are replaced.
* `Program.within_of_compile`: the arguments of a compiled stream are no larger than the program.
-/

namespace TapeLang

/-- The op has no argument, or one that is not zero and no larger than a bound. Jumps are not
restricted. -/
def Op.Within (bound : Nat) : Op → Prop
  | .forward count | .backward count => 0 < count ∧ count ≤ bound
  | .add count | .sub count | .write count | .read count => 0 < count ∧ count ≤ bound
  | .scanUntilZero delta | .transferAndZero delta => delta ≠ 0 ∧ delta.natAbs ≤ bound
  | .setZero | .jumpIfZero _ | .jumpIfNotZero _ => True

/-- The displacement by a count is the count, in the one or the other direction. -/
theorem signedWord_within {bound count : Nat} (hbound : bound < 2 ^ 63) (hpos : 0 < count)
    (hle : count ≤ bound) :
    (signedWord count ≠ 0 ∧ (signedWord count).natAbs ≤ bound) ∧
      signedWord (-signedWord count) ≠ 0 ∧ (signedWord (-signedWord count)).natAbs ≤ bound := by
  have hcount : count < 2 ^ 63 := by omega
  rw [signedWord_neg_signedWord hcount, signedWord_natCast hcount]
  omega

/-- An op that replaces a loop reaches no further than the ops of the body. -/
theorem Op.within_of_specialize {strict : Bool} {items : List Op} {op : Op} {bound : Nat}
    (hbound : bound < 2 ^ 63) (hall : ∀ item ∈ items, item.Within bound)
    (h : specialize strict items = some op) : op.Within bound := by
  -- the distance of the new op is that of a move it replaces, read as a signed word
  unfold specialize at h
  split at h
  case h_1 | h_2 =>
    split at h
    · cases h
    · cases h
      trivial
  case h_3 step =>
    cases h
    obtain ⟨hpos, hle⟩ : (Op.forward step).Within bound := hall _ (by simp)
    exact (signedWord_within hbound hpos hle).1
  case h_4 step =>
    cases h
    obtain ⟨hpos, hle⟩ : (Op.backward step).Within bound := hall _ (by simp)
    exact (signedWord_within hbound hpos hle).2
  case h_5 out back =>
    split at h
    · cases h
      obtain ⟨hpos, hle⟩ : (Op.forward out).Within bound := hall _ (by simp)
      exact (signedWord_within hbound hpos hle).1
    · cases h
  case h_6 out back =>
    split at h
    · cases h
      obtain ⟨hpos, hle⟩ : (Op.backward out).Within bound := hall _ (by simp)
      exact (signedWord_within hbound hpos hle).2
    · cases h
  case h_7 => cases h

namespace Block

variable {options : CompileOptions} {program : Program} {position : Nat}

/-- What holds of all ops of a block, and of what replaces ops of which it holds, holds of all ops
after loops are replaced. -/
theorem all_reduce_of_specialize {p : Op → Prop} {block : Block Op}
    (hspecialize : ∀ strict items op, (∀ item ∈ items, p item) →
      specialize strict items = some op → p op)
    (h : block.All p) : (block.reduce options).All p := by
  induction block with
  | done => trivial
  | op item rest ih => exact ⟨h.1, ih h.2⟩
  | loop body rest ihbody ihrest =>
    cases hreplacement : (body.reduce options).replacement? options with
    | some replacement =>
      rw [reduce_loop_of_some hreplacement]
      refine ⟨?_, ihrest h.2⟩
      -- a body that is replaced has no loops, so replacing has not changed it
      obtain ⟨items, rfl, hitems⟩ := exists_items_of_replacement? hreplacement
      exact hspecialize _ items replacement (all_of_all_foldr h.1) hitems
    | none =>
      rw [reduce_loop_of_none hreplacement]
      exact ⟨ihbody h.1, ihrest h.2⟩

/-- The op of a run is no longer than the program. -/
theorem within_of_maximalRunAt {run : Run} (h : program.MaximalRunAt position run) :
    run.op.Within program.size := by
  have hpos := h.count_pos
  have hle := h.count_le
  have hside := h.side_eq
  obtain ⟨instr, count⟩ := run
  cases instr with
  | loopStart => cases hside
  | loopEnd => cases hside
  | _ => exact ⟨hpos, hle⟩

/-- The ops of the runs of a program are no longer than the program. -/
theorem all_within_of_reads {block : Block Run} (h : program.Reads position block) :
    block.plain.All (Op.Within program.size) := by
  induction block generalizing position with
  | done => trivial
  | op run rest ih => exact ⟨within_of_maximalRunAt h.1, ih h.2⟩
  | loop body rest ihbody ihrest => exact ⟨ihbody h.2.1, ihrest h.2.2.2⟩

end Block

namespace Program

variable {options : CompileOptions} {program : Program} {stream : Stream}

/-- The arguments in a compiled stream are no larger than the program is long. -/
theorem within_of_compile (hsize : program.size < 2 ^ 63)
    (h : program.compile options = .ok stream) :
    ∀ op ∈ stream.ops.toList, op.Within program.size := by
  obtain ⟨block, hspells, hops, -⟩ := exists_spells_of_compile h
  have hall : (block.plain.reduce options).All (Op.Within program.size) := by
    apply Block.all_reduce_of_specialize
    · intro strict items op hitems hop
      exact Op.within_of_specialize hsize hitems hop
    · exact Block.all_within_of_reads (reads_zero_of_spells hspells)
  rw [hops]
  exact Block.forall_mem_layout (fun _ => trivial) (fun _ => trivial) hall 0

end Program

end TapeLang

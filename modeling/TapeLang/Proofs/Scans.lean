import Mathlib.Order.Nat
import TapeLang.Proofs.Safety

/-!
# Where scans end

A scan has no counter: it moves until the current cell is zero, and only the tape bounds it. Each
move brings it closer to the end of the tape that lies in its direction, so a scan that moves at all
has to stop after some number of moves, on a cell that is zero or with a move off the tape. The
first such number says where it ends and how.

## Main definitions

* `Tape.target`: the index that a scan has come to after a number of moves.
* `Tape.StopsAfter`: there is no cell at this index, or it is zero.
* `Tape.Stopped`: how a scan ends that stops after a number of moves.

## Main results

* `Tape.scan_of_stopsAfter`: a scan ends with the first move after which it has to stop.
* `Tape.exists_isLeast_stopsAfter`: a scan that moves at all has to stop.
* `Program.scans_stop`: where scans end, and that those of a compiled stream do.
-/

namespace TapeLang

namespace Tape

/-- The index that a scan has come to after a number of moves, on the tape or off it. -/
def target (tape : Tape) (step : Int) (moves : Nat) : Int :=
  tape.pointer + moves * step

/-- After a number of moves a scan cannot go on: it has left the tape, or the cell it has come to is
zero. -/
def StopsAfter (tape : Tape) (step : Int) (moves : Nat) : Prop :=
  tape.target step moves < 0 ∨ tapeSize ≤ tape.target step moves ∨
    tape.cell? (tape.target step moves).toNat = some 0

instance (tape : Tape) (step : Int) (moves : Nat) : Decidable (tape.StopsAfter step moves) := by
  unfold StopsAfter
  infer_instance

/-- How a scan ends that stops after a number of moves. The cells are those it started with. -/
inductive Stopped (tape : Tape) (step : Int) (moves : Nat) : Outcome Tape → Prop
  /-- What it has come to is a cell of the tape, and the pointer is there. -/
  | done {index : Fin tapeSize} (htarget : (index : Int) = tape.target step moves) :
    Stopped tape step moves (.done { tape with pointer := index })
  /-- What it has come to is no cell of the tape. The error names the index, and the pointer is
  where it was before the last move. -/
  | failed {index : Fin tapeSize}
      (hoff : ¬ (0 ≤ tape.target step moves ∧ tape.target step moves < tapeSize))
      (hbefore : (index : Int) = tape.pointer + ((moves : Int) - 1) * step) :
    Stopped tape step moves
      (.failed (.outOfRange (tape.target step moves)) { tape with pointer := index })

variable {tape next : Tape} {step : Int} {moves : Nat} {outcome : Outcome Tape}

/-- Before it moves a scan is where it starts. -/
@[simp]
theorem target_zero (tape : Tape) (step : Int) : tape.target step 0 = tape.pointer := by
  simp [target]

/-- Every cell of the tape can be looked up by its index. -/
theorem cell?_eq_get (tape : Tape) (index : Fin tapeSize) :
    tape.cell? index = some (tape.cells.get index) :=
  Vector.getElem?_eq_getElem index.isLt

/-- A scan need not move if the current cell is zero. -/
theorem stopsAfter_zero_iff : tape.StopsAfter step 0 ↔ tape.current = 0 := by
  have hleft : ¬ (tape.pointer : Int) < 0 := by omega
  have hright : ¬ (tapeSize : Int) ≤ tape.pointer := by omega
  rw [StopsAfter, target_zero, Int.toNat_natCast, cell?_eq_get, Option.some.injEq]
  simp only [hleft, hright, false_or]
  rfl

/-- After its first move a scan comes to the same indices with one move less. -/
theorem target_of_moveBy (h : tape.moveBy step = .done next) (moves : Nat) :
    next.target step moves = tape.target step (moves + 1) := by
  rw [target, target, (moveBy_eq_done_iff.mp h).2]
  push_cast
  ring

/-- After its first move a scan has to stop where it had to before. -/
theorem stopsAfter_of_moveBy (h : tape.moveBy step = .done next) (moves : Nat) :
    next.StopsAfter step moves ↔ tape.StopsAfter step (moves + 1) := by
  rw [StopsAfter, StopsAfter, target_of_moveBy h, cell?, cell?, (moveBy_eq_done_iff.mp h).1]

/-- A scan that moves once ends as it does from the next cell. -/
theorem Stopped.of_moveBy (h : tape.moveBy step = .done next)
    (hstopped : next.Stopped step moves outcome) : tape.Stopped step (moves + 1) outcome := by
  obtain ⟨hcells, hpointer⟩ := moveBy_eq_done_iff.mp h
  cases hstopped with
  | @done index htarget =>
    rw [target_of_moveBy h] at htarget
    rw [hcells]
    exact .done htarget
  | @failed index hoff hbefore =>
    rw [target_of_moveBy h] at hoff ⊢
    rw [hcells]
    -- the cell before the last move is the same, counted from the one cell or from the next
    refine .failed hoff ?_
    rw [hbefore, hpointer]
    push_cast
    ring

/-- A scan ends with the first move after which it cannot go on. -/
theorem scan_of_stopsAfter (hstop : tape.StopsAfter step moves)
    (hbefore : ∀ earlier < moves, ¬ tape.StopsAfter step earlier) :
    ∃ outcome, tape.Stopped step moves outcome ∧
      ∀ rounds > moves, scan step rounds tape = outcome := by
  -- each move leaves one move less to the first one after which the scan cannot go on
  induction moves generalizing tape with
  | zero =>
    refine ⟨.done tape, .done (target_zero tape step).symm, fun rounds hrounds => ?_⟩
    obtain ⟨rounds, rfl⟩ := Nat.exists_eq_add_of_lt hrounds
    rw [scan, if_pos (stopsAfter_zero_iff.mp hstop)]
  | succ moves ih =>
    have hne : tape.current ≠ 0 := fun hzero =>
      hbefore 0 (Nat.succ_pos _) (stopsAfter_zero_iff.mpr hzero)
    cases hmove : tape.moveBy step with
    | done next =>
      obtain ⟨outcome, hstopped, hscan⟩ := ih ((stopsAfter_of_moveBy hmove _).mpr hstop)
        fun earlier hlt => (stopsAfter_of_moveBy hmove _).not.mpr
          (hbefore (earlier + 1) (Nat.succ_lt_succ hlt))
      refine ⟨outcome, hstopped.of_moveBy hmove, fun rounds hrounds => ?_⟩
      obtain ⟨rounds, rfl⟩ := Nat.exists_eq_add_of_lt hrounds
      rw [scan, if_neg hne, hmove]
      exact hscan _ (by omega)
    | failed error stopped =>
      obtain ⟨rfl, rfl, hoff⟩ := of_moveBy_eq_failed hmove
      have htarget : stopped.target step 1 = stopped.pointer + step := by simp [target]
      -- a move off the tape is the last one
      obtain rfl : moves = 0 := by
        by_contra hmoves
        refine hbefore 1 (by omega) ?_
        rw [StopsAfter, htarget]
        omega
      refine ⟨.failed (.outOfRange (stopped.pointer + step)) stopped, ?_, fun rounds hrounds => ?_⟩
      · rw [← htarget] at hoff ⊢
        exact .failed hoff (by simp)
      · obtain ⟨rounds, rfl⟩ := Nat.exists_eq_add_of_lt hrounds
        rw [scan, if_neg hne, hmove]
        rfl
    | unfinished => exact absurd hmove (moveBy_ne_unfinished tape step)

/-- After as many moves as the tape has cells a scan that moves at all has left the tape. -/
theorem stopsAfter_tapeSize (hstep : step ≠ 0) (tape : Tape) : tape.StopsAfter step tapeSize := by
  have hpointer := tape.pointer.isLt
  simp only [StopsAfter, target, tapeSize] at *
  omega

/-- A scan that moves at all has to stop, no later than after as many moves as the tape has
cells. -/
theorem exists_isLeast_stopsAfter (hstep : step ≠ 0) (tape : Tape) :
    ∃ moves ≤ tapeSize, IsLeast {moves | tape.StopsAfter step moves} moves := by
  -- the length of the tape bounds the number of moves in either direction
  have hexists : ∃ moves, tape.StopsAfter step moves := ⟨tapeSize, stopsAfter_tapeSize hstep tape⟩
  exact ⟨Nat.find hexists, Nat.find_min' hexists (stopsAfter_tapeSize hstep tape),
    Nat.find_spec hexists, fun moves => Nat.find_min' hexists⟩

end Tape

namespace Program

/-- A scan that moves at all ends after the least number of moves by which it leaves the tape or
comes to a zero, with its pointer there or, off the tape, where it was before the last move; its
arithmetic does not overflow if its step is shorter than `2 ^ 63` by the length of the tape. The
scans of a compiled stream all move, and none of them goes on for ever, provided that the program
has fewer than `2 ^ 63` instructions, as every program in memory has. -/
theorem scans_stop :
    (∀ (tape : Tape) (step : Int), step ≠ 0 → step.natAbs < 2 ^ 63 - tapeSize →
      ∃ moves ≤ tapeSize, IsLeast {moves | tape.StopsAfter step moves} moves ∧
        ∃ outcome, tape.Stopped step moves outcome ∧ tape.scanUntilZero step = outcome ∧
          ∀ rounds > moves, Tape.scan step rounds tape = outcome ∧
            BareTape.scan step rounds tape.bare = .ok (outcome.map Tape.bare)) ∧
    ∀ options program stream, program.size < 2 ^ 63 → compile options program = .ok stream →
      ∀ step, .scanUntilZero step ∈ stream.ops →
        step ≠ 0 ∧ ∀ machine : Machine, ((Op.scanUntilZero step).act machine).Terminates ∧
          ∀ rounds ≥ tapeSize, (Op.scanUntilZero step).actBare rounds machine.bare ≠
            .ok .unfinished := by
  constructor
  · intro tape step hstep hshort
    obtain ⟨moves, hmoves, hleast⟩ := tape.exists_isLeast_stopsAfter hstep
    obtain ⟨outcome, hstopped, hscan⟩ := Tape.scan_of_stopsAfter hleast.1 fun earlier hlt hstop =>
      Nat.not_le_of_lt hlt (hleast.2 hstop)
    refine ⟨moves, hmoves, hleast, outcome, hstopped, ?_,
      fun rounds hrounds => ⟨hscan rounds hrounds, ?_⟩⟩
    · -- one more round would not change how the scan ends
      have hend : (tape.scanUntilZero step).Terminates := fun h =>
        hstep (Tape.step_eq_zero_of_scanUntilZero h)
      rw [← hscan (tapeSize + 1) (Nat.lt_succ_of_le hmoves)]
      exact (Tape.scan_le (Nat.le_succ _) hend).symm
    · rw [← hscan rounds hrounds]
      exact (BareTape.refines_scan_rounds tape step rounds).eq_ok fun trap _ =>
        Trap.not_ofSum hshort (Nat.le_refl _)
  · intro options program stream hsize hcompile step hmem
    obtain ⟨hstep, -⟩ : (Op.scanUntilZero step).Within program.size :=
      within_of_compile hsize hcompile _ (Array.mem_toList_iff.mpr hmem)
    refine ⟨hstep, fun machine => ?_⟩
    have hend : ((Op.scanUntilZero step).act machine).Terminates := by
      intro hunfinished
      cases Op.eq_scan_of_act hunfinished
      exact hstep rfl
    refine ⟨hend, fun rounds hrounds hunfinished => hend ?_⟩
    -- a bare scan that is cut off would be one of the machine
    have hmap := (Op.refines_act hrounds (.scanUntilZero step) machine).of_eq_ok hunfinished
    cases hact : (Op.scanUntilZero step).act machine with
    | done final => rw [hact] at hmap; cases hmap
    | failed error final => rw [hact] at hmap; cases hmap
    | unfinished => rfl

/-- From a first cell that is not zero, on a tape where all others are, a scan to the right ends on
the next cell that it comes to, and a scan to the left leads off the tape. -/
theorem scans_stop_bothExits :
    (Tape.blank.setCurrent 1).scanUntilZero 2 =
        .done { Tape.blank.setCurrent 1 with pointer := ⟨2, by decide⟩ } ∧
      (Tape.blank.setCurrent 1).scanUntilZero (-1) =
        .failed (.outOfRange (-1)) (Tape.blank.setCurrent 1) ∧
      ∃ stream, compile {} ⟨#[.loopStart, .right, .loopEnd]⟩ = .ok stream ∧
        stream.ops = #[.scanUntilZero 1] ∧
        ∀ machine, ((Op.scanUntilZero 1).act machine).Terminates := by
  have hleast {step : Int} (h : (Tape.blank.setCurrent 1).StopsAfter step 1) :
      IsLeast {moves | (Tape.blank.setCurrent 1).StopsAfter step moves} 1 := by
    refine ⟨h, fun moves hmoves => Nat.one_le_iff_ne_zero.mpr ?_⟩
    rintro rfl
    have hzero := Tape.stopsAfter_zero_iff.mp hmoves
    rw [Tape.current_setCurrent] at hzero
    cases hzero
  have hright : (Tape.blank.setCurrent 1).target 2 1 = 2 := rfl
  have hleft : (Tape.blank.setCurrent 1).target (-1) 1 = -1 := rfl
  have hcell : (Tape.blank.setCurrent 1).cell? 2 = some 0 := by
    have hindex : Tape.blank.pointer ≠ ⟨2, by decide⟩ := by decide
    rw [Tape.cell?_eq_get _ ⟨2, by decide⟩, Tape.setCurrent, Tape.cells_modifyCell_of_ne hindex]
    simp [Tape.blank, Vector.get]
  have hcompile : compile {} ⟨#[.loopStart, .right, .loopEnd]⟩ =
      .ok ⟨#[.scanUntilZero 1], #[0], ⟨0, 1, 0, 0⟩, rfl⟩ := rfl
  obtain ⟨hends, hcompiled⟩ := scans_stop
  refine ⟨?_, ?_, _, hcompile, rfl, fun machine =>
    ((hcompiled _ _ _ (by decide) hcompile 1 (by simp)).2 machine).1⟩
  · obtain ⟨moves, -, hmoves, outcome, hstopped, hscan, -⟩ :=
      hends (Tape.blank.setCurrent 1) 2 (by decide) (by decide)
    obtain rfl := hmoves.unique (hleast (.inr (.inr hcell)))
    rw [hscan]
    cases hstopped with
    | @done index hindex =>
      rw [hright] at hindex
      obtain rfl : index = ⟨2, by decide⟩ := Fin.ext (Int.ofNat_inj.mp hindex)
      rfl
    | failed hoff =>
      rw [hright] at hoff
      exact absurd (by decide) hoff
  · obtain ⟨moves, -, hmoves, outcome, hstopped, hscan, -⟩ :=
      hends (Tape.blank.setCurrent 1) (-1) (by decide) (by decide)
    obtain rfl := hmoves.unique (hleast (.inl (by rw [hleft]; decide)))
    rw [hscan]
    cases hstopped with
    | done hindex =>
      rw [hleft] at hindex
      omega
    | @failed index hoff hindex =>
      obtain rfl : index = (Tape.blank.setCurrent 1).pointer :=
        Fin.ext (Int.ofNat_inj.mp (by simpa using hindex))
      rw [hleft]

end Program

end TapeLang

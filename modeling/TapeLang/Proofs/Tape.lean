import TapeLang.Machine

/-!
# Tape algebra

How changes of cells combine with each other, when scans end, and how the machine takes part in
both.

* `Tape.modifyCell_comm` and `Tape.modifyCell_modifyCell`: changes of different cells commute, and
  changes of one cell compose.
* `Tape.terminates_scan`: a scan that moves ends when it has passed all cells.
* `Tape.scanUntilZero_of_moveBy`: a scan goes on in the same way from the next cell.
-/

namespace TapeLang

namespace Tape

variable {tape next : Tape} {index other : Fin tapeSize}

/-- A changed cell holds the changed value. -/
@[simp]
theorem cells_modifyCell_self (tape : Tape) (index : Fin tapeSize) (change : UInt8 → UInt8) :
    (tape.modifyCell index change).cells.get index = change (tape.cells.get index) := by
  rw [cells_modifyCell]
  exact Vector.getElem_set_self index.isLt

/-- The other cells keep their values. -/
theorem cells_modifyCell_of_ne (h : index ≠ other) (change : UInt8 → UInt8) :
    (tape.modifyCell index change).cells.get other = tape.cells.get other := by
  rw [cells_modifyCell]
  exact Vector.getElem_set_ne index.isLt other.isLt fun heq => h (Fin.ext heq)

/-- Tapes with the same pointer and the same cells are equal. -/
theorem ext_cells (hpointer : tape.pointer = next.pointer)
    (hcells : ∀ index : Fin tapeSize, tape.cells.get index = next.cells.get index) :
    tape = next := by
  refine Tape.ext (Vector.ext fun position hposition => ?_) hpointer
  exact hcells ⟨position, hposition⟩

/-- A change that keeps the value of a cell changes nothing. -/
theorem modifyCell_eq_self {change : UInt8 → UInt8}
    (h : change (tape.cells.get index) = tape.cells.get index) :
    tape.modifyCell index change = tape := by
  refine ext_cells rfl fun position => ?_
  by_cases heq : index = position
  · subst heq
    rw [cells_modifyCell_self, h]
  · exact cells_modifyCell_of_ne heq change

/-- Two changes of a cell are one change. -/
@[simp]
theorem modifyCell_modifyCell (tape : Tape) (index : Fin tapeSize)
    (change change' : UInt8 → UInt8) :
    (tape.modifyCell index change).modifyCell index change' =
      tape.modifyCell index fun value => change' (change value) := by
  refine ext_cells rfl fun position => ?_
  by_cases heq : index = position
  · subst heq
    simp only [cells_modifyCell_self]
  · rw [cells_modifyCell_of_ne heq, cells_modifyCell_of_ne heq, cells_modifyCell_of_ne heq]

/-- Changes of different cells can be made in any order. -/
theorem modifyCell_comm (h : index ≠ other) (tape : Tape) (change change' : UInt8 → UInt8) :
    (tape.modifyCell index change).modifyCell other change' =
      (tape.modifyCell other change').modifyCell index change := by
  refine ext_cells rfl fun position => ?_
  by_cases heq : other = position
  · subst heq
    rw [cells_modifyCell_self, cells_modifyCell_of_ne h, cells_modifyCell_of_ne h,
      cells_modifyCell_self]
  · rw [cells_modifyCell_of_ne heq]
    by_cases heq' : index = position
    · subst heq'
      rw [cells_modifyCell_self, cells_modifyCell_self, cells_modifyCell_of_ne heq]
    · rw [cells_modifyCell_of_ne heq', cells_modifyCell_of_ne heq', cells_modifyCell_of_ne heq]

/-- Adding to the current cell changes its value. -/
@[simp]
theorem current_addCurrent (tape : Tape) (amount : UInt8) :
    (tape.addCurrent amount).current = tape.current + amount :=
  cells_modifyCell_self tape tape.pointer (· + amount)

/-- Subtracting from the current cell changes its value. -/
@[simp]
theorem current_subCurrent (tape : Tape) (amount : UInt8) :
    (tape.subCurrent amount).current = tape.current - amount :=
  cells_modifyCell_self tape tape.pointer (· - amount)

/-- To subtract is to add the opposite. -/
theorem subCurrent_eq_addCurrent (tape : Tape) (amount : UInt8) :
    tape.subCurrent amount = tape.addCurrent (-amount) := by
  simp only [subCurrent, addCurrent, UInt8.sub_eq_add_neg]

/-- What was added to a cell does not matter when the cell is set. -/
@[simp]
theorem setCurrent_addCurrent (tape : Tape) (amount value : UInt8) :
    (tape.addCurrent amount).setCurrent value = tape.setCurrent value :=
  modifyCell_modifyCell tape tape.pointer (· + amount) fun _ => value

/-- Setting a cell to the value it has changes nothing. -/
theorem setCurrent_of_current_eq {value : UInt8} (h : tape.current = value) :
    tape.setCurrent value = tape :=
  modifyCell_eq_self h.symm

/-- A cell that is not found is off the tape, and the error names its index. -/
theorem of_offset_eq_error {delta : Int} {error : Error} (h : tape.offset delta = .error error) :
    error = .outOfRange (tape.pointer + delta) ∧
      ¬ (0 ≤ tape.pointer + delta ∧ tape.pointer + delta < tapeSize) := by
  unfold offset index? at h
  split at h
  · cases h
  · next hrange =>
    cases h
    exact ⟨rfl, hrange⟩

/-- A move that fails leaves the tape as it is and names the index it was to go to. -/
theorem of_moveBy_eq_failed {stopped : Tape} {delta : Int} {error : Error}
    (h : tape.moveBy delta = .failed error stopped) :
    stopped = tape ∧ error = .outOfRange (tape.pointer + delta) ∧
      ¬ (0 ≤ tape.pointer + delta ∧ tape.pointer + delta < tapeSize) := by
  unfold moveBy at h
  split at h
  · cases h
  · next hoffset =>
    cases h
    exact ⟨rfl, of_offset_eq_error hoffset⟩

/-- A move takes one step, or fails. -/
theorem moveBy_ne_unfinished (tape : Tape) (delta : Int) : tape.moveBy delta ≠ .unfinished := by
  unfold moveBy
  split <;> simp

/-- A transfer takes one step, or fails. -/
theorem transferAndZero_ne_unfinished (tape : Tape) (delta : Int) :
    tape.transferAndZero delta ≠ .unfinished := by
  unfold transferAndZero
  dsimp only
  split
  · simp
  · split <;> simp

/-- A scan that has ended ends in the same way with more fuel. -/
theorem scan_le {step : Int} {fuel more : Nat} (hle : fuel ≤ more)
    (hend : (scan step fuel tape).Terminates) : scan step more tape = scan step fuel tape := by
  induction fuel generalizing more tape with
  | zero => exact absurd rfl hend
  | succ fuel ih =>
    obtain ⟨more, rfl⟩ : ∃ k, more = k + 1 := ⟨more - 1, by omega⟩
    rw [scan] at hend
    rw [scan, scan]
    split
    · rfl
    · next hne =>
      rw [if_neg hne] at hend
      cases hmove : tape.moveBy step with
      | done next =>
        rw [hmove] at hend
        exact ih (by omega) hend
      | failed error stopped => rfl
      | unfinished => rfl

/-- A scan that moves ends when it has passed all the cells in its direction. -/
theorem terminates_scan {step : Int} {fuel : Nat} (hstep : step ≠ 0)
    (hright : 0 < step → tapeSize ≤ tape.pointer + fuel) (hleft : step < 0 → tape.pointer < fuel) :
    (scan step fuel tape).Terminates := by
  induction fuel generalizing tape with
  | zero => omega
  | succ fuel ih =>
    rw [scan]
    split
    · simp [Outcome.Terminates]
    · cases hmove : tape.moveBy step with
      | done next =>
        have hpointer := (moveBy_eq_done_iff.mp hmove).2
        exact ih (fun hpos => by have := hright hpos; omega)
          (fun hneg => by have := hleft hneg; omega)
      | failed error stopped => simp [Outcome.Terminates]
      | unfinished => exact absurd hmove (moveBy_ne_unfinished tape step)

/-- A scan looks at the current cell first, and then moves. -/
theorem scanUntilZero_eq (tape : Tape) (step : Int) :
    tape.scanUntilZero step = if tape.current = 0 then .done tape
      else (tape.moveBy step).bind (scan step (tapeSize - 1)) := rfl

/-- A scan goes on in the same way from the next cell. -/
theorem scanUntilZero_of_moveBy {step : Int} (hne : tape.current ≠ 0)
    (hmove : tape.moveBy step = .done next) :
    tape.scanUntilZero step = next.scanUntilZero step := by
  have hunfold : tape.scanUntilZero step = scan step (tapeSize - 1) next := by
    rw [scanUntilZero_eq, if_neg hne, hmove]
    rfl
  by_cases hstep : step = 0
  · -- a move by zero stays where it is
    obtain ⟨hcells, hpointer⟩ := moveBy_eq_done_iff.mp hmove
    have hsame : next = tape := Tape.ext hcells (Fin.ext (by omega))
    rw [hsame]
  · have hend : (scan step (tapeSize - 1) next).Terminates := by
      rw [← hunfold]
      exact terminates_scan hstep (fun _ => by omega) fun _ => tape.pointer.isLt
    rw [hunfold]
    exact (scan_le (Nat.sub_le _ _) hend).symm

/-- Only a scan that stays in place does not come to its end. -/
theorem step_eq_zero_of_scanUntilZero {step : Int} (h : tape.scanUntilZero step = .unfinished) :
    step = 0 :=
  Decidable.byContradiction fun hne =>
    terminates_scan hne (fun _ => by omega) (fun _ => tape.pointer.isLt) h

/-- A scan that does not come to its end never does. -/
theorem scan_eq_unfinished {step : Int}
    (h : tape.scanUntilZero step = .unfinished) (fuel : Nat) :
    scan step fuel tape = .unfinished := by
  obtain rfl : step = 0 := step_eq_zero_of_scanUntilZero h
  have hne : tape.current ≠ 0 := by
    intro hzero
    rw [scanUntilZero_eq, if_pos hzero] at h
    cases h
  have hmove : tape.moveBy 0 = .done tape := moveBy_eq_done_iff.mpr ⟨rfl, by omega⟩
  induction fuel with
  | zero => rfl
  | succ fuel ih => rw [scan, if_neg hne, hmove, Outcome.bind_done, ih]

end Tape

namespace Machine

/-- The machine with another tape. -/
def withTape (machine : Machine) (tape : Tape) : Machine :=
  { machine with tape := tape }

@[simp]
theorem tape_withTape (machine : Machine) (tape : Tape) : (machine.withTape tape).tape = tape := rfl

@[simp]
theorem withTape_tape (machine : Machine) : machine.withTape machine.tape = machine := rfl

@[simp]
theorem withTape_withTape (machine : Machine) (tape tape' : Tape) :
    (machine.withTape tape).withTape tape' = machine.withTape tape' := rfl

/-- A computation on the tape leaves the rest of the machine alone. -/
theorem onTape_eq (machine : Machine) (action : Tape → Outcome Tape) :
    machine.onTape action = (action machine.tape).map machine.withTape := rfl

/-- A change of the tape leaves the rest of the machine alone. -/
theorem mapTape_eq (machine : Machine) (change : Tape → Tape) :
    machine.mapTape change = machine.withTape (change machine.tape) := rfl

/-- A move that succeeds moves the pointer of the tape. -/
theorem of_moveBy_eq_done {machine next : Machine} {delta : Int}
    (h : machine.moveBy delta = .done next) :
    ∃ tape, machine.tape.moveBy delta = .done tape ∧ next = machine.withTape tape := by
  rw [moveBy, onTape_eq] at h
  cases hmove : machine.tape.moveBy delta with
  | done tape =>
    rw [hmove] at h
    cases h
    exact ⟨tape, rfl, rfl⟩
  | failed error tape =>
    rw [hmove] at h
    cases h
  | unfinished =>
    rw [hmove] at h
    cases h

/-- A move that fails leaves the machine as it is. -/
theorem of_moveBy_eq_failed {machine stopped : Machine} {delta : Int} {error : Error}
    (h : machine.moveBy delta = .failed error stopped) :
    stopped = machine ∧ machine.tape.moveBy delta = .failed error machine.tape := by
  rw [moveBy, onTape_eq] at h
  cases hmove : machine.tape.moveBy delta with
  | done tape =>
    rw [hmove] at h
    cases h
  | failed error' tape =>
    obtain ⟨rfl, -, -⟩ := Tape.of_moveBy_eq_failed hmove
    rw [hmove] at h
    cases h
    exact ⟨rfl, rfl⟩
  | unfinished =>
    rw [hmove] at h
    cases h

/-- A move takes one step, or fails. -/
theorem moveBy_ne_unfinished (machine : Machine) (delta : Int) :
    machine.moveBy delta ≠ .unfinished := by
  rw [moveBy, onTape_eq]
  cases hmove : machine.tape.moveBy delta with
  | done tape => simp
  | failed error tape => simp
  | unfinished => exact absurd hmove (Tape.moveBy_ne_unfinished _ _)

end Machine

end TapeLang

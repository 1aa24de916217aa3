import TapeLang.Outcome

/-!
# The tape

The tape is a row of `tapeSize` byte cells and a data pointer, which is always on the tape. Cells
wrap around modulo 256; a move that would take the pointer off the tape is an error and leaves
the pointer where it is.
-/

namespace TapeLang

/-- The cells and the data pointer. -/
@[ext]
structure Tape where
  /-- The cells. -/
  cells : Vector UInt8 tapeSize
  /-- The index of the current cell. -/
  pointer : Fin tapeSize

namespace Tape

/-- The index of the first cell. -/
def origin : Fin tapeSize := ⟨0, by decide⟩

/-- The tape on which every cell is zero and the pointer stands on the first. -/
def blank : Tape := ⟨Vector.replicate tapeSize 0, origin⟩

/-- The value of the current cell. -/
def current (tape : Tape) : UInt8 :=
  tape.cells[tape.pointer]

/-- The value of the cell at an index, if it is on the tape. -/
def cell? (tape : Tape) (index : Nat) : Option UInt8 :=
  tape.cells[index]?

/-- Changes the cell at an index. -/
def modifyCell (tape : Tape) (index : Fin tapeSize) (change : UInt8 → UInt8) : Tape :=
  match tape with
  | ⟨cells, pointer⟩ => ⟨cells.set index (change cells[index]), pointer⟩

/-- Gives the current cell a value. -/
def setCurrent (tape : Tape) (value : UInt8) : Tape :=
  tape.modifyCell tape.pointer fun _ => value

/-- Adds to the current cell, modulo 256. -/
def addCurrent (tape : Tape) (amount : UInt8) : Tape :=
  tape.modifyCell tape.pointer (· + amount)

/-- Subtracts from the current cell, modulo 256. -/
def subCurrent (tape : Tape) (amount : UInt8) : Tape :=
  tape.modifyCell tape.pointer (· - amount)

/-- The index of a cell, given as any number, if it is on the tape. -/
def index? (target : Int) : Except Error (Fin tapeSize) :=
  if h : 0 ≤ target ∧ target < tapeSize then .ok ⟨target.toNat, by omega⟩
  else .error (.outOfRange target)

/-- The index of the cell `delta` cells away from the pointer. -/
def offset (tape : Tape) (delta : Int) : Except Error (Fin tapeSize) :=
  index? (tape.pointer + delta)

/-- Puts the pointer on the cell at `index`. The error names the index as a signed word. -/
def setPointer (tape : Tape) (index : Nat) : Except Error Tape :=
  if h : index < tapeSize then .ok { tape with pointer := ⟨index, h⟩ }
  else .error (.outOfRange (Int.bmod index 0x10000000000000000))

/-- Moves the pointer by `delta` cells. -/
def moveBy (tape : Tape) (delta : Int) : Outcome Tape :=
  match tape.offset delta with
  | .ok index => .done { tape with pointer := index }
  | .error error => .failed error tape

/-- Moves the pointer by `step` until the current cell is zero, but at most `fuel` times. -/
def scan (step : Int) : Nat → Tape → Outcome Tape
  | 0, _ => .unfinished
  | fuel + 1, tape =>
    if tape.current = 0 then .done tape else (tape.moveBy step).bind (scan step fuel)

/-- Moves the pointer by `step` until the current cell is zero. A scan that moves at all meets a
zero or the end of the tape within `tapeSize` steps; one that stays in place on a cell that is
not zero never ends. -/
def scanUntilZero (tape : Tape) (step : Int) : Outcome Tape :=
  scan step tapeSize tape

/-- Adds the current cell to the cell `delta` cells away and sets it to zero. If it is zero
already, nothing happens, even if there is no cell to add to. -/
def transferAndZero (tape : Tape) (delta : Int) : Outcome Tape :=
  let value := tape.current
  if value = 0 then .done tape
  else
    match tape.offset delta with
    | .ok target => .done ((tape.modifyCell target (· + value)).setCurrent 0)
    | .error error => .failed error tape

/-- Writes bytes to the cells from `index` on, one after another. -/
def writeCells (tape : Tape) (index : Nat) : List UInt8 → Except Error Tape
  | [] => .ok tape
  | byte :: rest =>
    match tape.setPointer index with
    | .ok tape => (tape.setCurrent byte).writeCells (index + 1) rest
    | .error error => .error error

/-- The maximal stretches of equal cells other than zero in a row of cells that begins at
`start`: first index, length and value of each. -/
def stretches (start : Nat) (cells : List UInt8) : List (Nat × Nat × UInt8) :=
  let extend (entry : UInt8 × Nat) : List (Nat × Nat × UInt8) → List (Nat × Nat × UInt8)
    | [] => [(entry.2, 1, entry.1)]
    | (index, count, value) :: rest =>
      if index = entry.2 + 1 ∧ value = entry.1 then (entry.2, count + 1, value) :: rest
      else (entry.2, 1, entry.1) :: (index, count, value) :: rest
  ((cells.zipIdx start).filter fun entry => entry.1 ≠ 0).foldr extend []

/-- The contents of the tape, as its stretches of equal cells other than zero. -/
def contents (tape : Tape) : List (Nat × Nat × UInt8) :=
  stretches 0 tape.cells.toList

/-- Changing a cell does not move the pointer. -/
@[simp]
theorem pointer_modifyCell (tape : Tape) (index : Fin tapeSize) (change : UInt8 → UInt8) :
    (tape.modifyCell index change).pointer = tape.pointer := rfl

/-- Changing a cell changes that cell. -/
theorem cells_modifyCell (tape : Tape) (index : Fin tapeSize) (change : UInt8 → UInt8) :
    (tape.modifyCell index change).cells = tape.cells.set index (change tape.cells[index]) := rfl

/-- The current cell has the value it was given. -/
@[simp]
theorem current_setCurrent (tape : Tape) (value : UInt8) :
    (tape.setCurrent value).current = value := by
  simp [current, setCurrent, cells_modifyCell]

/-- A number is an index of the tape if and only if it lies in its range. -/
theorem index?_eq_ok_iff {target : Int} {index : Fin tapeSize} :
    index? target = .ok index ↔ target = index := by
  unfold index?
  split
  · next h =>
    simp only [Except.ok.injEq, Fin.ext_iff]
    omega
  · next h =>
    simp only [reduceCtorEq, false_iff]
    omega

/-- A move by `delta` adds `delta` to the pointer and keeps the cells. -/
theorem moveBy_eq_done_iff {tape moved : Tape} {delta : Int} :
    tape.moveBy delta = .done moved ↔
      moved.cells = tape.cells ∧ (moved.pointer : Int) = tape.pointer + delta := by
  unfold moveBy offset
  cases h : index? (tape.pointer + delta) with
  | ok index =>
    rw [index?_eq_ok_iff] at h
    simp only [Outcome.done.injEq, Tape.ext_iff, Fin.ext_iff]
    constructor
    · rintro ⟨hcells, hpointer⟩
      exact ⟨hcells.symm, by omega⟩
    · rintro ⟨hcells, hpointer⟩
      exact ⟨hcells.symm, by omega⟩
  | error error =>
    simp only [reduceCtorEq, false_iff, not_and]
    intro _ hpointer
    rw [index?_eq_ok_iff.mpr hpointer.symm] at h
    cases h

end Tape

end TapeLang

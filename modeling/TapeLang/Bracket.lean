import TapeLang.Error
import TapeLang.Instr

/-!
# Matching brackets

Partners are found by counting: a scan starts beside a bracket and goes outward, one bracket more
to be closed for each that opens on the way, and one less for each that closes, until the partner
itself is met. The scans work on sequences of any kind; `side` tells which items are brackets.
-/

namespace TapeLang

variable {α : Type}

/-- The side of a loop a byte of a source text stands on, if any. -/
def bracketOfByte (byte : UInt8) : Option Bracket :=
  (Instr.ofByte? byte).bind Instr.side

namespace Bracket

/-- Scans forward from `position` for the end of the loop that is `depth` loops further out. -/
def closeFrom (side : α → Option Bracket) (items : Array α) (depth position : Nat) :
    Option Nat :=
  if h : position < items.size then
    match side items[position], depth with
    | some .closing, 0 => some position
    | some .closing, depth + 1 => closeFrom side items depth (position + 1)
    | some .opening, depth => closeFrom side items (depth + 1) (position + 1)
    | none, depth => closeFrom side items depth (position + 1)
  else
    none
termination_by items.size - position

/-- Scans backward, starting just before `position`, for the start of the loop that is `depth`
loops further out. -/
def openBefore (side : α → Option Bracket) (items : Array α) (depth : Nat) : Nat → Option Nat
  | 0 => none
  | position + 1 =>
    match items[position]?.bind side, depth with
    | some .opening, 0 => some position
    | some .opening, depth + 1 => openBefore side items depth position
    | some .closing, depth => openBefore side items (depth + 1) position
    | none, depth => openBefore side items depth position

/-- The position of the loop end that belongs to the loop start at `position`. -/
def matchingClose (side : α → Option Bracket) (items : Array α) (position : Nat) : Option Nat :=
  closeFrom side items 0 (position + 1)

/-- The position of the loop start that belongs to the loop end at `position`. -/
def matchingOpen (side : α → Option Bracket) (items : Array α) (position : Nat) : Option Nat :=
  openBefore side items 0 position

/-- Like `matchingOpen`, but a scan that would begin beyond the last item is an error. -/
def matchingOpen? (side : α → Option Bracket) (items : Array α) (position : Nat) :
    Except Error (Option Nat) :=
  if position ≤ items.size then .ok (matchingOpen side items position)
  else .error (.lookupPastEnd items.size (position - 1))

section OpenBefore

variable {side : α → Option Bracket} {items : Array α} {depth position : Nat}

/-- A backward scan passes an item that is no bracket. -/
theorem openBefore_of_none (h : items[position]?.bind side = none) :
    openBefore side items depth (position + 1) = openBefore side items depth position := by
  simp only [openBefore, h]

/-- A backward scan looks for one more loop start after it has met a loop end. -/
theorem openBefore_of_closing (h : items[position]?.bind side = some .closing) :
    openBefore side items depth (position + 1) = openBefore side items (depth + 1) position := by
  simp only [openBefore, h]

/-- A backward scan that looks for several loop starts looks for one less after it has met one. -/
theorem openBefore_of_opening (h : items[position]?.bind side = some .opening) :
    openBefore side items (depth + 1) (position + 1) = openBefore side items depth position := by
  simp only [openBefore, h]

/-- A backward scan ends at the loop start that it looks for. -/
theorem openBefore_zero_of_opening (h : items[position]?.bind side = some .opening) :
    openBefore side items 0 (position + 1) = some position := by
  simp only [openBefore, h]

end OpenBefore

end Bracket

end TapeLang

import TapeLang.Instr

/-!
# Nesting

A sequence in which some items stand on a side of a loop is read as a block: its items in their
nesting. The brackets themselves are not kept, so whatever they carry is forgotten.
`Block.ofItems?` finds the nesting of a sequence, if its brackets match.
-/

namespace TapeLang

variable {α : Type}

/-- Items in their nesting. -/
inductive Block (α : Type) where
  /-- No more items. -/
  | done
  /-- An item that is no bracket, and what follows it. -/
  | op (item : α) (rest : Block α)
  /-- A loop, and what follows it. -/
  | loop (body rest : Block α)

namespace Block

/-- The number of items of a block, the two brackets of each loop included. -/
def size : Block α → Nat
  | done => 0
  | op _ rest => rest.size + 1
  | loop body rest => body.size + rest.size + 2

/-- Items read from the end of a sequence: the ones since the last loop end that is not complete,
and for each such loop end, innermost first, what follows it. -/
structure Suffix (α : Type) where
  /-- What has been read of the innermost loop. -/
  inner : Block α
  /-- What follows the loops whose start has not been read. -/
  outer : List (Block α)

/-- Puts an item in front. A loop start without a loop end fails. -/
def Suffix.push (side : α → Option Bracket) (item : α) (suffix : Suffix α) :
    Option (Suffix α) :=
  match side item with
  | some .closing => some ⟨.done, suffix.inner :: suffix.outer⟩
  | some .opening =>
    match suffix.outer with
    | rest :: outer => some ⟨.loop suffix.inner rest, outer⟩
    | [] => none
  | none => some ⟨.op item suffix.inner, suffix.outer⟩

/-- Reads the end of a sequence. -/
def suffix (side : α → Option Bracket) (items : List α) : Option (Suffix α) :=
  items.foldr (fun item suffix => suffix.bind (Suffix.push side item)) (some ⟨.done, []⟩)

/-- The nesting of items whose brackets match. -/
def ofItems? (side : α → Option Bracket) (items : List α) : Option (Block α) :=
  match suffix side items with
  | some ⟨block, []⟩ => some block
  | _ => none

end Block

end TapeLang

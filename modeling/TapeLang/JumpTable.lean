import TapeLang.Bracket
import TapeLang.Program

/-!
# Jump tables

A jump table keeps, for each position of a program, the position of the partner bracket, so that
a run need not scan for it. `Program.resolveJumps` fills the table from left to right, and fails
at the first bracket whose scan runs off the program.
-/

namespace TapeLang

namespace Program

/-- The partner of the loop start at `position`. -/
def closeOf (program : Program) (position : Nat) : Option Nat :=
  Bracket.matchingClose Instr.side program.instrs position

/-- The partner of the loop end at `position`. -/
def openOf (program : Program) (position : Nat) : Option Nat :=
  Bracket.matchingOpen Instr.side program.instrs position

end Program

/-- The partners of the brackets of one program. -/
@[ext]
structure JumpTable where
  /-- For each position of the program the partner of the bracket there, if there is one. -/
  targets : Array (Option Nat)
  /-- The loops, as start and end, in the order in which they start. -/
  pairs : Array (Nat × Nat)
  deriving DecidableEq

namespace JumpTable

/-- The table of a program of `size` instructions before any bracket is resolved. -/
def blank (size : Nat) : JumpTable :=
  ⟨Array.replicate size none, #[]⟩

/-- The partner of the bracket at `position`; `none` where no bracket has been resolved. -/
def target? (table : JumpTable) (position : Nat) : Option Nat :=
  table.targets[position]?.join

/-- Makes two brackets partners of each other. -/
def link (table : JumpTable) (opening closing : Nat) : JumpTable :=
  { table with
    targets := (table.targets.setIfInBounds opening (some closing)).setIfInBounds closing
      (some opening) }

/-- Adds a loop to the list of loops. -/
def addPair (table : JumpTable) (opening closing : Nat) : JumpTable :=
  { table with pairs := table.pairs.push (opening, closing) }

/-- Resolves the bracket at `position`, if one stands there. A loop end that a loop start has
claimed already is left alone. -/
def resolve (program : Program) (table : JumpTable) (position : Nat) : Except Error JumpTable :=
  match program.get? position with
  | some .loopStart =>
    match program.closeOf position with
    | some closing => .ok ((table.link position closing).addPair position closing)
    | none => .error (.unmatchedBracket '[' position)
  | some .loopEnd =>
    if (table.target? position).isSome then
      .ok table
    else
      match program.openOf position with
      | some opening => .ok (table.link opening position)
      | none => .error (.unmatchedBracket ']' position)
  | _ => .ok table

end JumpTable

/-- Matches every bracket of a program. Fails with the leftmost bracket that has no partner. -/
def Program.resolveJumps (program : Program) : Except Error JumpTable :=
  (List.range program.size).foldlM (JumpTable.resolve program) (.blank program.size)

end TapeLang

/-!
# Errors of the toolchain

Every error is fatal: it ends the compilation or the run in which it arises. An error is kept as
its cause; `Error.message` is the one place that puts causes into words, and `Error.kind` sorts
them by the part of the toolchain that gives up.
-/

namespace TapeLang

/-- Number of cells on the tape. -/
def tapeSize : Nat := 30000

/-- Why native code could not be generated. -/
inductive CodegenError where
  /-- A run length that is no signed 64-bit number. -/
  | countTooLarge (count : Nat)
  /-- A distance that does not fit the immediate operand of an instruction. -/
  | immediateTooWide (distance : Nat)
  /-- A displacement that is no signed 32-bit number. -/
  | displacementTooWide (distance : Int)
  /-- A loop end without an open loop. -/
  | unmatchedClose
  /-- Loops without a loop end. -/
  | loopsLeftOpen (count : Nat)
  /-- A branch field at `offset` whose label never got a place. -/
  | unboundLabel (offset label : Nat)
  /-- A label that was never handed out. -/
  | unknownLabel (label : Nat)
  /-- A label that already has a place. -/
  | labelBoundTwice (label : Nat)
  /-- A branch whose displacement is no signed 32-bit number. -/
  | branchTooFar (source target : Nat)
  /-- A byte to be overwritten past the `size` bytes emitted so far. -/
  | patchPastEnd (offset size : Nat)
  /-- Four bytes to be overwritten that do not lie within the `size` bytes emitted so far. -/
  | widePatchPastEnd (offset size : Nat)
  /-- Any other cause, in words. -/
  | other (text : String)
  deriving DecidableEq

/-- Why code could not be placed in executable memory. -/
inductive ArenaError where
  /-- A region of no bytes was asked for. -/
  | emptyRegion
  /-- The system refused a region of this size. -/
  | mapRefused (size : Nat)
  /-- More bytes of code than the region holds. -/
  | codeTooLarge (size room : Nat)
  /-- A region without code was to be made executable. -/
  | nothingWritten
  /-- Any other cause, in words. -/
  | other (text : String)
  deriving DecidableEq

/-- Which rule an op stream breaks. -/
inductive StreamError where
  /-- A jump that is taken leads outside the stream. -/
  | jumpOutside (position target size : Nat)
  /-- A loop start whose target does not jump back to it. -/
  | noJumpBack (position target : Nat)
  /-- A loop end whose target is not the innermost open loop. -/
  | wrongLoop (position target innermost : Nat)
  /-- A loop end where no loop is open. -/
  | noOpenLoop (position : Nat)
  /-- A loop start without a loop end. -/
  | neverClosed (position : Nat)
  /-- Any other cause, in words. -/
  | other (text : String)
  deriving DecidableEq

/-- A fatal error, by its cause. -/
inductive Error where
  /-- A bracket of the program has no partner. -/
  | unmatchedBracket (bracket : Char) (position : Nat)
  /-- The data pointer was to leave the tape for `pointer`. -/
  | outOfRange (pointer : Int)
  /-- Native code could not be generated. -/
  | codegen (cause : CodegenError)
  /-- Executable memory could not be managed. -/
  | arena (cause : ArenaError)
  /-- Reading or writing the program's own streams failed. -/
  | io (text : String)
  /-- An op stream is not consistent. -/
  | stream (cause : StreamError)
  /-- A look-up at `index` in a sequence of `size` items. -/
  | lookupPastEnd (size index : Nat)
  /-- A jump to a position that no word can number. -/
  | positionOverflow
  deriving DecidableEq

/-- The part of the toolchain in which an error arises. -/
inductive ErrorKind where
  /-- A bracket without a partner. -/
  | unmatchedBracket
  /-- A data pointer off the tape. -/
  | outOfRange
  /-- Code generation. -/
  | codegen
  /-- Executable memory. -/
  | arena
  /-- The program's input and output. -/
  | io
  /-- A broken op stream. -/
  | stream
  /-- A broken assumption of the machine itself, which ends the run on the spot. -/
  | crash
  deriving DecidableEq

namespace CodegenError

/-- The cause in words. -/
def message : CodegenError → String
  | countTooLarge count => s!"count {count} too large"
  | immediateTooWide distance =>
    s!"displacement {distance} does not fit in a 32-bit immediate"
  | displacementTooWide distance => s!"displacement {distance} does not fit in 32 bits"
  | unmatchedClose => "unmatched ']' in op stream"
  | loopsLeftOpen count => s!"{count} loops left open in op stream"
  | unboundLabel offset label => s!"branch at {offset} targets unbound label {label}"
  | unknownLabel label => s!"unknown label {label}"
  | labelBoundTwice label => s!"label {label} bound twice"
  | branchTooFar source target => s!"branch from {source} to {target} does not fit in 32 bits"
  | patchPastEnd offset size => s!"patch at {offset} past end of {size} emitted bytes"
  | widePatchPastEnd offset size =>
    s!"4-byte patch at {offset} past end of {size} emitted bytes"
  | other text => text

end CodegenError

namespace ArenaError

/-- The cause in words. -/
def message : ArenaError → String
  | emptyRegion => "cannot map an empty region"
  | mapRefused size =>
    s!"mmap of {size} bytes failed: Cannot allocate memory (os error 12)"
  | codeTooLarge size room => s!"{size} bytes of code do not fit in a {room} byte region"
  | nothingWritten => "no code written to region"
  | other text => text

end ArenaError

namespace StreamError

/-- The cause in words. -/
def message : StreamError → String
  | jumpOutside position target size =>
    s!"jump at {position} targets {target} outside a stream of {size} ops"
  | noJumpBack position target =>
    s!"JUMP_IF_ZERO at {position} targets {target} which does not jump back"
  | wrongLoop position target innermost =>
    s!"JUMP_IF_NOT_ZERO at {position} targets {target} but innermost loop opens at {innermost}"
  | noOpenLoop position => s!"JUMP_IF_NOT_ZERO at {position} has no open loop"
  | neverClosed position => s!"JUMP_IF_ZERO at {position} is never closed"
  | other text => text

end StreamError

namespace Error

/-- The part of the toolchain in which the error arises. -/
def kind : Error → ErrorKind
  | unmatchedBracket .. => .unmatchedBracket
  | outOfRange _ => .outOfRange
  | codegen _ => .codegen
  | arena _ => .arena
  | io _ => .io
  | stream _ => .stream
  | lookupPastEnd .. => .crash
  | positionOverflow => .crash

/-- The error in words, as it is reported to the user. -/
def message : Error → String
  | unmatchedBracket bracket position => s!"unmatched '{bracket}' at position {position}"
  | outOfRange pointer =>
    s!"data pointer out of range: {pointer} (tape has {tapeSize} cells)"
  | codegen cause => "code generation failed: " ++ cause.message
  | arena cause => "executable memory failure: " ++ cause.message
  | io text => "I/O error: " ++ text
  | stream cause => "internal error: " ++ cause.message
  | lookupPastEnd size index =>
    s!"index out of bounds: the len is {size} but the index is {index}"
  | positionOverflow => "attempt to add with overflow"

end Error

end TapeLang

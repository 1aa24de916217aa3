import TapeLang.Error
import TapeLang.Op.Specialize

/-!
# Op streams

A stream is a sequence of ops in which jumps name their partner by index, together with the
position in the source program that each op comes from. `Stream.validate` checks that the jumps
nest and point at each other, `Stream.loopPairs` lists the loops and `Stream.listing` prints the
ops. A stream may be built from any ops; only compiled streams are known to be consistent.
-/

namespace TapeLang

/-- A sequence of ops with the source position of each. -/
@[ext]
structure Stream where
  /-- The ops in order. -/
  ops : Array Op
  /-- For each op the position of the first instruction that it comes from. -/
  positions : Array Nat
  /-- What became of the loops of the source program. -/
  stats : LoopStats
  /-- Each op has a source position. -/
  size_positions : positions.size = ops.size

namespace Stream

/-- The stream without ops. -/
def empty : Stream := ⟨#[], #[], .zero, rfl⟩

/-- A stream of given ops; each op is its own source. -/
def ofOps (ops : Array Op) : Stream :=
  ⟨ops, Array.range ops.size, .zero, by simp⟩

/-- The number of ops. -/
def size (stream : Stream) : Nat :=
  stream.ops.size

/-- The op at an index, if there is one. -/
def get? (stream : Stream) (index : Nat) : Option Op :=
  stream.ops[index]?

/-- The source position of the op at an index, if there is one. -/
def position? (stream : Stream) (index : Nat) : Option Nat :=
  stream.positions[index]?

/-- The stream with one more op at its end. -/
def push (stream : Stream) (op : Op) (position : Nat) : Stream :=
  { stream with
    ops := stream.ops.push op
    positions := stream.positions.push position
    size_positions := by simp [stream.size_positions] }

/-- The first `count` ops of the stream. -/
def take (stream : Stream) (count : Nat) : Stream :=
  { stream with
    ops := stream.ops.shrink count
    positions := stream.positions.shrink count
    size_positions := by simp [stream.size_positions] }

/-- The stream with another op in the place of the one at `index`. -/
def replace (stream : Stream) (index : Nat) (op : Op) : Stream :=
  { stream with
    ops := stream.ops.setIfInBounds index op
    size_positions := by simp [stream.size_positions] }

/-- The start and the target of every loop that is left in the stream, in order of the starts. -/
def loopPairs (stream : Stream) : List (Nat × Nat) :=
  stream.ops.toList.zipIdx.filterMap fun
    | (.jumpIfZero target, index) => some (index, target)
    | _ => none

/-- Checks the op at `index`, given the starts of the loops open there, innermost first, and
gives the loops open after it. -/
def checkOp (ops : Array Op) (opened : List Nat) : Op × Nat → Except StreamError (List Nat)
  | (.jumpIfZero target, index) =>
    if ops[target]? = some (.jumpIfNotZero index) then .ok (index :: opened)
    else .error (.noJumpBack index target)
  | (.jumpIfNotZero target, index) =>
    match opened with
    | [] => .error (.noOpenLoop index)
    | innermost :: outer =>
      if innermost = target then .ok outer
      else .error (.wrongLoop index target innermost)
  | _ => .ok opened

/-- The check of `validate`, with the broken rule as its error. -/
def check (ops : Array Op) : Except StreamError Unit := do
  match ← ops.toList.zipIdx.foldlM (checkOp ops) [] with
  | [] => .ok ()
  | innermost :: _ => .error (.neverClosed innermost)

/-- Checks that the loops of the stream nest properly and that the two ends of each loop point
at each other. -/
def validate (stream : Stream) : Except Error Unit :=
  (check stream.ops).mapError .stream

/-- One line of a listing: the index, right-aligned, and the op. -/
def line (index : Nat) (op : Op) : String :=
  let number := toString index
  "".pushn ' ' (6 - number.length) ++ number ++ "  " ++ op.text ++ "\n"

/-- The ops of the stream, one on each line. -/
def listing (stream : Stream) : String :=
  stream.ops.toList.zipIdx.foldl (fun text (op, index) => text ++ line index op) ""

/-- The listing, and after it a line with the number of ops and of loops. -/
def dump (stream : Stream) : String :=
  stream.listing ++
    s!"; {stream.size} ops, {stream.stats.specialized} loops specialized, " ++
    s!"{stream.stats.plainLoops} plain\n"

@[simp]
theorem size_push (stream : Stream) (op : Op) (position : Nat) :
    (stream.push op position).size = stream.size + 1 := by
  simp [size, push]

end Stream

end TapeLang

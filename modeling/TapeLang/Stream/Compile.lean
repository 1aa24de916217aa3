import TapeLang.Program
import TapeLang.Stream

/-!
# Compiling programs to op streams

A program is compiled in one pass over its runs. A run of equal instructions becomes one op that
carries its length. A loop start is noted and its jump left without a target; at the loop end the
loop is either replaced by a single op, if its body has a known effect, or both jumps get their
targets. As inner loops end before outer ones, replacing works from the inside out.
-/

namespace TapeLang

/-- How programs are compiled. -/
structure CompileOptions where
  /-- Replace loops with a known effect by a single op. -/
  specializeLoops : Bool := true
  /-- Replace a loop that adds or subtracts a constant only if the constant is odd. -/
  strictZeroing : Bool := false
  deriving DecidableEq

/-- A loop start whose loop end has not been met. -/
structure OpenLoop where
  /-- The index of its jump in the stream. -/
  index : Nat
  /-- Its position in the program. -/
  position : Nat
  deriving DecidableEq

/-- A compilation that has come to some point of the program. -/
structure Compilation where
  /-- The position in the program up to which it is compiled. -/
  position : Nat
  /-- The ops so far; the jumps of open loops have no target yet. -/
  stream : Stream
  /-- The open loops, innermost first. -/
  opened : List OpenLoop

namespace Stream

/-- The op that replaces the loop whose jump stands at `start` and whose body is all that
follows. Bodies longer than every known one are not looked at. -/
def specializeFrom (stream : Stream) (strict : Bool) (start : Nat) : Option Op :=
  if stream.size ≤ start + 1 + longestIdiom then
    specialize strict (stream.ops.extract (start + 1) stream.size).toList
  else
    none

/-- Ends the loop whose jump stands at `start`; its loop end stands at `position` in the
program. -/
def closeLoop (stream : Stream) (options : CompileOptions) (loop : OpenLoop) (position : Nat) :
    Stream :=
  let replacement :=
    if options.specializeLoops then stream.specializeFrom options.strictZeroing loop.index
    else none
  match replacement with
  | some op =>
    let shortened := (stream.take loop.index).push op loop.position
    { shortened with stats := shortened.stats.record op }
  | none =>
    let closed := (stream.replace loop.index (.jumpIfZero stream.size)).push
      (.jumpIfNotZero loop.index) position
    { closed with stats := closed.stats.recordPlain }

end Stream

namespace Compilation

/-- The compilation before the first instruction. -/
def start : Compilation := ⟨0, .empty, []⟩

/-- Adds the op of a run of `count` instructions. -/
def emit (state : Compilation) (op : Op) (count : Nat) : Compilation :=
  { state with
    position := state.position + count
    stream := state.stream.push op state.position }

/-- Opens a loop. -/
def openLoop (state : Compilation) : Compilation :=
  match state with
  | ⟨position, stream, opened⟩ =>
    let loop : OpenLoop := ⟨stream.size, position⟩
    ⟨position + 1, stream.push (.jumpIfZero 0) position, loop :: opened⟩

/-- Ends the innermost open loop. -/
def closeLoop (options : CompileOptions) (state : Compilation) : Except Error Compilation :=
  match state with
  | ⟨position, _, []⟩ => .error (.unmatchedBracket ']' position)
  | ⟨position, stream, innermost :: outer⟩ =>
    .ok ⟨position + 1, stream.closeLoop options innermost position, outer⟩

/-- Compiles one run. -/
def step (options : CompileOptions) (state : Compilation) (run : Run) :
    Except Error Compilation :=
  match run.instr with
  | .right => .ok (state.emit (.forward run.count) run.count)
  | .left => .ok (state.emit (.backward run.count) run.count)
  | .increment => .ok (state.emit (.add run.count) run.count)
  | .decrement => .ok (state.emit (.sub run.count) run.count)
  | .write => .ok (state.emit (.write run.count) run.count)
  | .read => .ok (state.emit (.read run.count) run.count)
  | .loopStart => .ok state.openLoop
  | .loopEnd => state.closeLoop options

/-- The finished stream. If loops are open at the end of the program, the outermost of them, which
starts first, is the error. -/
def finish (state : Compilation) : Except Error Stream :=
  match state.opened.getLast? with
  | some outermost => .error (.unmatchedBracket '[' outermost.position)
  | none => .ok state.stream

end Compilation

namespace Program

/-- Compiles a program to an op stream. -/
def compile (options : CompileOptions) (program : Program) : Except Error Stream := do
  let state ← program.runs.foldlM (Compilation.step options) .start
  state.finish

/-- Compiles a program, keeping every loop as a pair of jumps. -/
def compilePlain (program : Program) : Except Error Stream :=
  program.compile { specializeLoops := false }

end Program

/-- Looking only at short bodies misses no loop that can be replaced. -/
theorem Stream.specializeFrom_eq (stream : Stream) (strict : Bool) (start : Nat) :
    stream.specializeFrom strict start =
      specialize strict (stream.ops.extract (start + 1) stream.size).toList := by
  unfold specializeFrom
  split
  · rfl
  · next h =>
    refine (specialize_eq_none_of_length ?_).symm
    simp only [size, Array.length_toList, Array.size_extract] at h ⊢
    omega

end TapeLang

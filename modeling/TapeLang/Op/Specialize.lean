import TapeLang.Op

/-!
# Loops with a known effect

Some loops do the same simple thing whatever the tape holds: they clear a cell, look for a zero,
or move a value. `specialize` recognizes the body of such a loop, exactly as a whole, and gives
the one op that stands for it. `LoopStats` counts what became of the loops of a program.
-/

namespace TapeLang

/-- The op that stands for a loop with this body, if there is one. The loop that adds or
subtracts `step` in each round reaches zero from every value only if `step` is odd; with `strict`
it is replaced only then. -/
def specialize (strict : Bool) : List Op → Option Op
  | [.add step] => if strict && step % 2 == 0 then none else some .setZero
  | [.sub step] => if strict && step % 2 == 0 then none else some .setZero
  | [.forward step] => some (.scanUntilZero (signedWord step))
  | [.backward step] => some (.scanUntilZero (signedWord (-signedWord step)))
  | [.sub 1, .forward out, .add 1, .backward back] =>
    if out = back then some (.transferAndZero (signedWord out)) else none
  | [.sub 1, .backward out, .add 1, .forward back] =>
    if out = back then some (.transferAndZero (signedWord (-signedWord out))) else none
  | _ => none

/-- The number of ops in the longest loop body that has a replacement. -/
def longestIdiom : Nat := 4

/-- A longer body has no replacement. -/
theorem specialize_eq_none_of_length {strict : Bool} {body : List Op}
    (h : longestIdiom < body.length) : specialize strict body = none := by
  unfold specialize
  split <;> first | rfl | simp [longestIdiom] at h

/-- An op that replaces a loop is one of the specialized ops. -/
theorem isSpecialized_of_specialize {strict : Bool} {body : List Op} {op : Op}
    (h : specialize strict body = some op) : op.isSpecialized = true := by
  unfold specialize at h
  split at h <;> (try split at h) <;> cases h <;> rfl

/-- How many loops of a program were replaced by each specialized op, and how many were kept. -/
@[ext]
structure LoopStats where
  /-- Loops that clear a cell. -/
  setZero : Nat
  /-- Loops that look for a zero. -/
  scanUntilZero : Nat
  /-- Loops that move a value. -/
  transferAndZero : Nat
  /-- Loops that stay a pair of jumps. -/
  plainLoops : Nat
  deriving DecidableEq

namespace LoopStats

/-- No loops. -/
def zero : LoopStats := ⟨0, 0, 0, 0⟩

/-- Counts a loop that `op` replaces; other ops replace no loop. -/
def record (stats : LoopStats) : Op → LoopStats
  | .setZero => { stats with setZero := stats.setZero + 1 }
  | .scanUntilZero _ => { stats with scanUntilZero := stats.scanUntilZero + 1 }
  | .transferAndZero _ => { stats with transferAndZero := stats.transferAndZero + 1 }
  | _ => stats

/-- Counts a loop that is kept. -/
def recordPlain (stats : LoopStats) : LoopStats :=
  { stats with plainLoops := stats.plainLoops + 1 }

/-- The number of loops that were replaced. -/
def specialized (stats : LoopStats) : Nat :=
  stats.setZero + stats.scanUntilZero + stats.transferAndZero

/-- A replaced loop is counted once, under the kind of the op that replaces it. -/
theorem record_eq_of_kind (stats : LoopStats) (op : Op) : stats.record op =
    { setZero := stats.setZero + if op.kind = .setZero then 1 else 0
      scanUntilZero := stats.scanUntilZero + if op.kind = .scanUntilZero then 1 else 0
      transferAndZero := stats.transferAndZero + if op.kind = .transferAndZero then 1 else 0
      plainLoops := stats.plainLoops } := by
  cases op <;> rfl

/-- A specialized op counts as one replaced loop, any other op as none. -/
theorem specialized_record (stats : LoopStats) (op : Op) :
    (stats.record op).specialized = stats.specialized + if op.isSpecialized then 1 else 0 := by
  cases op <;> simp [record, specialized, Op.isSpecialized] <;> omega

end LoopStats

end TapeLang

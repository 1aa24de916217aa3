import Std.Data.HashMap
import TapeLang.Op

/-!
# Profiles

A profile counts how often ops of each kind are executed. It also keeps traces: what has been
executed since the last jump, written as the symbols and arguments of the ops. Each time a loop
end is executed, the trace up to it is counted, so the most frequent traces show the bodies of the
innermost loops in which a program spends its time.
-/

namespace TapeLang

/-- What has been counted of the executed ops. -/
structure Profile where
  /-- For each kind of op how often such an op was executed. -/
  counts : Vector Nat 11
  /-- For each trace how often a loop end was executed after it. -/
  traces : Std.HashMap String Nat
  /-- The trace since the last jump. -/
  current : String

namespace Profile

/-- The profile of no ops. -/
def empty : Profile := ⟨Vector.replicate 11 0, ∅, ""⟩

/-- How often ops of a kind were executed. -/
def count (profile : Profile) (kind : Op.Kind) : Nat :=
  profile.counts[kind.index]

/-- How often a loop end was executed after a trace. -/
def traceCount (profile : Profile) (trace : String) : Nat :=
  profile.traces.getD trace 0

/-- The part of a trace that one op contributes. -/
def traceText (op : Op) : String :=
  String.singleton op.kind.symbol ++ toString op.argument

/-- Counts an executed op. -/
def record (profile : Profile) (op : Op) : Profile :=
  match profile with
  | ⟨counts, traces, current⟩ =>
    let counts := counts.set op.kind.index (counts[op.kind.index] + 1)
    match op with
    | .jumpIfZero _ => ⟨counts, traces, ""⟩
    | .jumpIfNotZero _ => ⟨counts, traces.alter current fun n => some (n.getD 0 + 1), ""⟩
    | op => ⟨counts, traces, current ++ traceText op⟩

/-- How many ops were executed in all. -/
def total (profile : Profile) : Nat :=
  profile.counts.foldl (· + ·) 0

/-- Whether an entry of the list of traces may stand before another: the more frequent trace comes
first, and of two that are equally frequent the one that is less as a text. -/
def traceOrder (entry other : String × Nat) : Bool :=
  other.2 < entry.2 || (entry.2 == other.2 && entry.1 ≤ other.1)

/-- The traces that were counted, each with its count, the most frequent first. -/
def loopTraces (profile : Profile) : List (String × Nat) :=
  profile.traces.toList.mergeSort traceOrder

/-- The kinds of which ops were executed, each with its count. -/
def kindCounts (profile : Profile) : List (Op.Kind × Nat) :=
  (Op.Kind.all.map fun kind => (kind, profile.count kind)).filter fun entry => entry.2 ≠ 0

/-- A text filled up with blanks to 15 characters. -/
def padded (text : String) : String :=
  text.pushn ' ' (15 - text.length)

/-- The profile as it is reported. -/
def report (profile : Profile) : String :=
  let kinds := profile.kindCounts.map fun (kind, count) => s!"{kind.name}\t--> {count}\n"
  let traces := profile.loopTraces.map fun (trace, count) => s!"{padded trace} --> {count}\n"
  "* Tracing:\n" ++ String.join kinds ++ s!".. Total: {profile.total}\n" ++ String.join traces

end Profile

end TapeLang

import Mathlib.Data.List.Count
import TapeLang.Interpreter.Bytecode

/-!
# Executed kinds

A run executes ops of some kinds, one after another. One run is thriftier than another if it does
the same input and output with at most as many ops, and with at most as many jumps of each sort.
What happens in addition, without input or output, only makes the other run less thrifty.

* `Bytecode.kindsOf`: the kinds of the ops at which a run was.
* `Thrifty`: how the kinds of the two runs compare.
* `Thrifty.cons`, `Thrifty.append`: runs that are put together from thriftier parts.
* `Thrifty.add`, `Thrifty.replace`: what more one of the runs may do, and what it may do instead.
-/

namespace TapeLang

namespace Bytecode

/-- The kinds of the ops at which a run was. -/
def kindsOf (ops : Array Op) (visited : List Config) : List Op.Kind :=
  visited.filterMap fun config => ops[config.position]?.map Op.kind

/-- The first configuration of a run adds its kind. -/
theorem kindsOf_cons (ops : Array Op) (config : Config) (visited : List Config) :
    kindsOf ops (config :: visited) = kindsOf ops [config] ++ kindsOf ops visited := by
  rw [kindsOf, ← List.singleton_append, List.filterMap_append]
  rfl

/-- A run that goes on executes the ops of both its parts. -/
theorem kindsOf_append (ops : Array Op) (visited later : List Config) :
    kindsOf ops (visited ++ later) = kindsOf ops visited ++ kindsOf ops later :=
  List.filterMap_append

/-- A run that begins at an op executes it first. -/
theorem kindsOf_cons_of_get {ops : Array Op} {config : Config} {op : Op}
    (hop : ops[config.position]? = some op) (visited : List Config) :
    kindsOf ops (config :: visited) = op.kind :: kindsOf ops visited := by
  rw [kindsOf_cons]
  simp [kindsOf, hop]

/-- No more ops are executed than there are configurations. -/
theorem length_kindsOf_le (ops : Array Op) (visited : List Config) :
    (kindsOf ops visited).length ≤ visited.length :=
  List.length_filterMap_le ..

end Bytecode

/-- Ops of this kind neither read nor write. -/
def Op.Kind.Quiet (kind : Op.Kind) : Prop :=
  kind ≠ .write ∧ kind ≠ .read

/-- A run that executes the kinds `kinds'` does as much input and output as one that executes
`kinds`, with at most as many ops. -/
structure Thrifty (kinds kinds' : List Op.Kind) : Prop where
  /-- It executes no more ops. -/
  length_le : kinds'.length ≤ kinds.length
  /-- It executes as many writes. -/
  write_eq : kinds'.count .write = kinds.count .write
  /-- It executes as many reads. -/
  read_eq : kinds'.count .read = kinds.count .read
  /-- It is at no more loop starts. -/
  jumpIfZero_le : kinds'.count .jumpIfZero ≤ kinds.count .jumpIfZero
  /-- It is at no more loop ends. -/
  jumpIfNotZero_le : kinds'.count .jumpIfNotZero ≤ kinds.count .jumpIfNotZero

namespace Thrifty

variable {kinds kinds' later later' more : List Op.Kind} {kind : Op.Kind}

/-- To execute the same is thrifty. -/
theorem refl (kinds : List Op.Kind) : Thrifty kinds kinds :=
  ⟨Nat.le_refl _, rfl, rfl, Nat.le_refl _, Nat.le_refl _⟩

/-- What is thrifty in two parts is thrifty as a whole. -/
theorem append (h : Thrifty kinds kinds') (h' : Thrifty later later') :
    Thrifty (kinds ++ later) (kinds' ++ later') where
  length_le := by
    simpa only [List.length_append] using Nat.add_le_add h.length_le h'.length_le
  write_eq := by rw [List.count_append, List.count_append, h.write_eq, h'.write_eq]
  read_eq := by rw [List.count_append, List.count_append, h.read_eq, h'.read_eq]
  jumpIfZero_le := by
    simpa only [List.count_append] using Nat.add_le_add h.jumpIfZero_le h'.jumpIfZero_le
  jumpIfNotZero_le := by
    simpa only [List.count_append] using Nat.add_le_add h.jumpIfNotZero_le h'.jumpIfNotZero_le

/-- Both runs may execute the same op first. -/
theorem cons (kind : Op.Kind) (h : Thrifty kinds kinds') :
    Thrifty (kind :: kinds) (kind :: kinds') :=
  (refl [kind]).append h

/-- The other run may execute more ops that neither read nor write. -/
theorem of_quiet (hquiet : ∀ kind ∈ more, kind.Quiet) : Thrifty more [] where
  length_le := Nat.zero_le _
  write_eq := (List.count_eq_zero.mpr fun hmem => (hquiet _ hmem).1 rfl).symm
  read_eq := (List.count_eq_zero.mpr fun hmem => (hquiet _ hmem).2 rfl).symm
  jumpIfZero_le := Nat.zero_le _
  jumpIfNotZero_le := Nat.zero_le _

/-- The other run may execute more ops that neither read nor write, before the rest. -/
theorem add (hquiet : ∀ kind ∈ more, kind.Quiet) (h : Thrifty kinds kinds') :
    Thrifty (more ++ kinds) kinds' :=
  (of_quiet hquiet).append h

/-- An op that stands for a loop may be executed instead of an op that neither reads nor writes. -/
theorem replace {op : Op} (hquiet : kind.Quiet) (hop : op.isSpecialized = true)
    (h : Thrifty kinds kinds') : Thrifty (kind :: kinds) (op.kind :: kinds') := by
  have hnone := of_quiet (List.forall_mem_singleton.mpr hquiet)
  have hfirst : Thrifty [kind] [op.kind] := by
    cases op with
    -- the kinds that stand for loops are none of those that are compared
    | setZero | scanUntilZero | transferAndZero =>
      exact ⟨Nat.le_refl _, hnone.write_eq, hnone.read_eq, Nat.zero_le _, Nat.zero_le _⟩
    | _ => cases hop
  exact hfirst.append h

end Thrifty

end TapeLang

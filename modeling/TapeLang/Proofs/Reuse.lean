import TapeLang.Executor
import TapeLang.Proofs.Loops

/-!
# Executors that are used again

An executor that keeps what it made of a program runs it again for other programs. What it keeps
after a history of calls is said here without following the history step by step: it is what was
made of the program of the last call that made something, and all that an execution does follows
from it.

## Main definitions

* `Keeper`, `Artefact`: the executors that keep something, and what they keep.
* `Call`, `Executor.afterAll`: preparations and executions, and the executor after them.
* `Keeper.LastMade`: the program of the last call that made something.
* `Executor.perform`: what an execution does to a machine.
* `Keeper.Serves`: what an executor does in its next call.

## Main results

* `Keeper.kept?_afterAll_iff`: what is kept is made of the program of the last call that made
  something.
* `Keeper.serves_afterAll`: what every executor that keeps something does after any history.
-/

namespace TapeLang

/-! ### Caches -/

namespace Cache

variable {α : Type} (cache : Cache α) (program : Program)

/-- What a cache has for a program: what it holds, or else what the program gives. -/
def used : Except Error α :=
  match cache.stored with
  | some made => .ok made
  | none => cache.build program

/-- A cache makes sure of what it has for a program, and then holds it. -/
theorem ensure_eq : cache.ensure program =
    match cache.used program with
    | .ok made => (.ok made, { cache with stored := some made })
    | .error error => (.error error, cache) := by
  obtain ⟨build, stored⟩ := cache
  cases stored with
  | some made => rfl
  | none =>
    cases hbuild : build program with
    | ok made => simp only [ensure, used, hbuild]
    | error error => simp only [ensure, used, hbuild]

/-- What a cache runs, and what it holds afterwards. -/
theorem runOn_eq (run : α → Machine → Outcome Machine) (machine : Machine) :
    cache.runOn run program machine =
      match cache.used program with
      | .ok made => (run made machine, { cache with stored := some made })
      | .error error => (.failed error machine, cache) := by
  rw [runOn, ensure_eq]
  cases cache.used program <;> rfl

/-- A preparation that succeeds replaces what is held. -/
theorem prepare_of_ok {cache : Cache α} {program : Program} {made : α}
    (h : cache.build program = .ok made) :
    cache.prepare program = (.ok (), { cache with stored := some made }) := by
  rw [prepare, h]

end Cache

/-- What is made of a result fails if and only if the result does. -/
theorem of_map_eq_error {α β : Type} {wrap : α → β} {result : Except Error α} {error : Error}
    (h : result.map wrap = .error error) : result = .error error := by
  cases result with
  | ok made => cases h
  | error error' =>
    cases h
    rfl

/-- What is made of a result is made of what the result gives. -/
theorem exists_of_map_eq_ok {α β : Type} {wrap : α → β} {result : Except Error α} {wrapped : β}
    (h : result.map wrap = .ok wrapped) : ∃ made, result = .ok made ∧ wrap made = wrapped := by
  cases result with
  | ok made =>
    cases h
    exact ⟨made, rfl, rfl⟩
  | error error => cases h

/-! ### Executors that keep something -/

/-- The kinds of executors that keep what they make of a program. -/
inductive Keeper where
  /-- Keeps a jump table. -/
  | jumpTable
  /-- Keeps an op stream. -/
  | bytecode (options : CompileOptions) (trace : Bool)
  /-- Keeps native code from templates. -/
  | templateJit (options : CompileOptions) (descriptors : Descriptors)
  /-- Keeps native code from the optimizing code generator. -/
  | craneliftJit (options : CompileOptions) (descriptors : Descriptors)

/-- What an executor keeps. -/
inductive Artefact where
  /-- A jump table. -/
  | table (table : JumpTable)
  /-- An op stream. -/
  | stream (stream : Stream)
  /-- Native code from templates. -/
  | template (code : TemplateCode)
  /-- Native code from the optimizing code generator. -/
  | lowered (code : LoweredCode)

/-- Runs an artefact on a machine. The program that is named matters to a jump table only. -/
def Artefact.run (artefact : Artefact) (program : Program) (fuel : Nat) (machine : Machine) :
    Outcome Machine :=
  match artefact with
  | .table found => Tabled.runWith program found fuel machine
  | .stream compiled => Bytecode.run compiled.ops fuel machine
  | .template code => code.call fuel machine
  | .lowered code => code.call fuel machine

/-- The profile that is reported of the run of an artefact. -/
def Artefact.report? (artefact : Artefact) (trace : Bool) (fuel : Nat) (machine : Machine) :
    Option Profile :=
  match artefact, trace with
  | .stream compiled, true =>
    (Bytecode.runProfiled compiled.ops fuel machine .empty).state?.map (·.2)
  | _, _ => none

namespace Keeper

/-- An executor that has not been used. -/
def fresh : Keeper → Executor
  | jumpTable => .jumpTable .ofJumpTables
  | bytecode options trace => .ofOptions options trace
  | templateJit options descriptors => .templateJit (.ofTemplates options descriptors)
  | craneliftJit options descriptors => .craneliftJit (.ofLowered options descriptors)

/-- What the executor makes of a program. -/
def build (keeper : Keeper) (program : Program) : Except Error Artefact :=
  match keeper with
  | jumpTable => program.resolveJumps.map .table
  | bytecode options _ => (program.compile options).map .stream
  | templateJit options descriptors =>
    ((Cache.ofTemplates options descriptors).build program).map .template
  | craneliftJit options descriptors =>
    ((Cache.ofLowered options descriptors).build program).map .lowered

/-- Something can be made of the program. -/
def Builds (keeper : Keeper) (program : Program) : Prop :=
  ∃ artefact, keeper.build program = .ok artefact

/-- Whether executions are traced. -/
def traces : Keeper → Bool
  | bytecode _ trace => trace
  | _ => false

end Keeper

namespace Executor

/-- What the executor keeps at present. -/
def kept? : Executor → Option Artefact
  | simple => none
  | jumpTable tables => tables.stored.map .table
  | bytecode _ _ streams _ => streams.stored.map .stream
  | templateJit codes => codes.stored.map .template
  | craneliftJit codes => codes.stored.map .lowered

/-- What an execution does to a machine. -/
def perform (executor : Executor) (fuel : Nat) (program : Program) (machine : Machine) :
    Outcome Machine :=
  match executor with
  | simple => Scanning.run program fuel machine
  | jumpTable tables =>
    (tables.runOn (fun table => Tabled.runWith program table fuel) program machine).1
  | bytecode _ _ streams _ =>
    (streams.runOn (fun stream => Bytecode.run stream.ops fuel) program machine).1
  | templateJit codes => (codes.runOn (fun code => code.call fuel) program machine).1
  | craneliftJit codes => (codes.runOn (fun code => code.call fuel) program machine).1

end Executor

namespace Keeper

/-- The executor is of this kind, whatever it keeps at present. -/
inductive Follows : Keeper → Executor → Prop
  | jumpTable {tables : Cache JumpTable} (hbuild : tables.build = Program.resolveJumps) :
      Follows .jumpTable (.jumpTable tables)
  | bytecode {options : CompileOptions} {trace : Bool} {streams : Cache Stream}
      {profile : Option Profile} (hbuild : streams.build = Program.compile options) :
      Follows (.bytecode options trace) (.bytecode options trace streams profile)
  | templateJit {options : CompileOptions} {descriptors : Descriptors} {codes : Cache TemplateCode}
      (hbuild : codes.build = (Cache.ofTemplates options descriptors).build) :
      Follows (.templateJit options descriptors) (.templateJit codes)
  | craneliftJit {options : CompileOptions} {descriptors : Descriptors} {codes : Cache LoweredCode}
      (hbuild : codes.build = (Cache.ofLowered options descriptors).build) :
      Follows (.craneliftJit options descriptors) (.craneliftJit codes)

/-- What an executor has for a program: what it keeps, or else what the program gives. -/
def used (keeper : Keeper) (executor : Executor) (program : Program) : Except Error Artefact :=
  match executor.kept? with
  | some artefact => .ok artefact
  | none => keeper.build program

end Keeper

/-- The execution has run an artefact on a fresh machine, and its executor keeps the artefact. -/
structure Execution.Runs (execution : Execution) (keeper : Keeper)
    (artefact : Artefact) (program : Program) (fuel : Nat) (input : Input) : Prop where
  /-- The executor is of its kind. -/
  follows : keeper.Follows execution.executor
  /-- The artefact is kept. -/
  kept?_eq : execution.executor.kept? = some artefact
  /-- The result is that of the run. -/
  result_eq : execution.result =
    (artefact.run program fuel (Executor.freshMachine input)).result?
  /-- The output is that of the run. -/
  output_eq : execution.output =
    ((artefact.run program fuel (Executor.freshMachine input)).state?.map (·.output.bytes)).getD #[]
  /-- The profile is that of the run. -/
  profile_eq : execution.profile =
    artefact.report? keeper.traces fuel (Executor.freshMachine input)

namespace Keeper

variable {keeper : Keeper} {executor : Executor} {program : Program} {artefact : Artefact}
  {error : Error}

/-- An executor that has not been used is of its kind. -/
theorem follows_fresh (keeper : Keeper) : keeper.Follows keeper.fresh := by
  cases keeper with
  | jumpTable => exact .jumpTable rfl
  | bytecode options trace => exact .bytecode rfl
  | templateJit options descriptors => exact .templateJit rfl
  | craneliftJit options descriptors => exact .craneliftJit rfl

/-- An executor that has not been used keeps nothing. -/
theorem kept?_fresh (keeper : Keeper) : keeper.fresh.kept? = none := by
  cases keeper <;> rfl

/-- Where nothing can be made of a program, a preparation changes nothing. -/
theorem prepare_of_error (h : keeper.Follows executor)
    (hmade : keeper.build program = .error error) :
    executor.prepare program = (.error error, executor) := by
  cases h with
  | jumpTable hbuild | bytecode hbuild | templateJit hbuild | craneliftJit hbuild =>
    rw [Executor.prepare, Cache.prepare_of_error (hbuild ▸ of_map_eq_error hmade)]

/-- What can be made of a program is kept after a preparation. -/
theorem prepare_of_ok (h : keeper.Follows executor) (hmade : keeper.build program = .ok artefact) :
    (executor.prepare program).1 = .ok () ∧ (executor.prepare program).2.kept? = some artefact ∧
      keeper.Follows (executor.prepare program).2 := by
  cases h with
  | jumpTable hbuild | bytecode hbuild | templateJit hbuild | craneliftJit hbuild =>
    obtain ⟨made, hprogram, rfl⟩ := exists_of_map_eq_ok hmade
    rw [Executor.prepare, Cache.prepare_of_ok (hbuild ▸ hprogram)]
    refine ⟨rfl, rfl, ?_⟩
    constructor
    exact hbuild

/-- An executor that keeps something has it for every program. -/
theorem used_of_some (hkept : executor.kept? = some artefact) (program : Program) :
    keeper.used executor program = .ok artefact := by
  rw [used, hkept]

/-- An executor that keeps nothing has what the program gives. -/
theorem used_of_none (hkept : executor.kept? = none) (program : Program) :
    keeper.used executor program = keeper.build program := by
  rw [used, hkept]

/-- What an executor has for a program is what its cache has for it. -/
theorem used_wrap {α : Type} {wrap : α → Artefact} {cache : Cache α}
    {build : Program → Except Error α} (hbuild : cache.build = build) :
    (match cache.stored.map wrap with
      | some artefact => Except.ok artefact
      | none => (build program).map wrap) = (cache.used program).map wrap := by
  subst hbuild
  obtain ⟨build, stored⟩ := cache
  cases stored <;> rfl

/-- An execution runs what the executor has for the program, and keeps it. -/
theorem execute_of_used_ok (h : keeper.Follows executor)
    (hused : keeper.used executor program = .ok artefact) (fuel : Nat) (input : Input) :
    (executor.execute fuel program input).Runs keeper artefact program fuel input ∧
      executor.perform fuel program (Executor.freshMachine input) =
        artefact.run program fuel (Executor.freshMachine input) := by
  cases h with
  | jumpTable hbuild =>
    obtain ⟨made, hcache, rfl⟩ := exists_of_map_eq_ok ((used_wrap hbuild).symm.trans hused)
    simp only [Executor.execute, Executor.perform, Cache.runOn_eq, hcache]
    exact ⟨⟨.jumpTable hbuild, rfl, rfl, rfl, rfl⟩, rfl⟩
  | @bytecode options trace streams profile hbuild =>
    obtain ⟨made, hcache, rfl⟩ := exists_of_map_eq_ok ((used_wrap hbuild).symm.trans hused)
    cases trace with
    | false =>
      simp only [Executor.execute, Executor.perform, Cache.runOn_eq, hcache]
      exact ⟨⟨.bytecode hbuild, rfl, rfl, rfl, rfl⟩, rfl⟩
    | true =>
      -- a traced run is the run, with a profile besides
      have hplain := Bytecode.map_runProfiled made.ops fuel (Executor.freshMachine input) .empty
      simp only [Executor.execute, Executor.perform, Cache.runOn_eq, Cache.ensure_eq, hcache]
      refine ⟨⟨.bytecode hbuild, rfl, ?_, ?_, rfl⟩, rfl⟩
      · rw [Artefact.run, ← hplain]
        rfl
      · rw [Artefact.run, ← hplain]
        rfl
  | templateJit hbuild =>
    obtain ⟨made, hcache, rfl⟩ := exists_of_map_eq_ok ((used_wrap hbuild).symm.trans hused)
    simp only [Executor.execute, Executor.perform, Cache.runOn_eq, hcache]
    exact ⟨⟨.templateJit hbuild, rfl, rfl, rfl, rfl⟩, rfl⟩
  | craneliftJit hbuild =>
    obtain ⟨made, hcache, rfl⟩ := exists_of_map_eq_ok ((used_wrap hbuild).symm.trans hused)
    simp only [Executor.execute, Executor.perform, Cache.runOn_eq, hcache]
    exact ⟨⟨.craneliftJit hbuild, rfl, rfl, rfl, rfl⟩, rfl⟩

/-- Where an executor has nothing for the program, an execution leaves everything as it is. -/
theorem execute_of_used_error (h : keeper.Follows executor)
    (hused : keeper.used executor program = .error error) (fuel : Nat) (input : Input) :
    executor.execute fuel program input = ⟨executor, some (.error error), #[], none⟩ ∧
      executor.perform fuel program (Executor.freshMachine input) =
        .failed error (Executor.freshMachine input) := by
  cases h with
  | jumpTable hbuild | templateJit hbuild | craneliftJit hbuild =>
    have hcache := of_map_eq_error ((used_wrap hbuild).symm.trans hused)
    simp only [Executor.execute, Executor.perform, Cache.runOn_eq, hcache]
    exact ⟨rfl, trivial⟩
  | @bytecode options trace streams profile hbuild =>
    have hcache := of_map_eq_error ((used_wrap hbuild).symm.trans hused)
    -- with a trace or without one, the stream is made first
    cases trace with
    | false =>
      simp only [Executor.execute, Executor.perform, Cache.runOn_eq, hcache]
      exact ⟨rfl, trivial⟩
    | true =>
      simp only [Executor.execute, Executor.perform, Cache.runOn_eq, Cache.ensure_eq, hcache]
      exact ⟨rfl, trivial⟩

end Keeper

/-! ### Histories -/

/-- A call of an executor. -/
inductive Call where
  /-- Makes ready to run a program. -/
  | prepare (program : Program)
  /-- Runs a program on an input. -/
  | execute (fuel : Nat) (program : Program) (input : Input)

/-- The program that the call names. -/
def Call.program : Call → Program
  | prepare program => program
  | execute _ program _ => program

/-- The call asks for a preparation. -/
def Call.Prepares : Call → Prop
  | prepare _ => True
  | execute .. => False

namespace Executor

/-- The executor after a call. -/
def after (executor : Executor) : Call → Executor
  | .prepare program => (executor.prepare program).2
  | .execute fuel program input => (executor.execute fuel program input).executor

/-- The executor after some calls. -/
def afterAll (executor : Executor) (calls : List Call) : Executor :=
  calls.foldl after executor

@[simp]
theorem afterAll_nil (executor : Executor) : executor.afterAll [] = executor := rfl

/-- The last call is made of the executor after the calls before it. -/
@[simp]
theorem afterAll_append_singleton (executor : Executor) (calls : List Call) (call : Call) :
    executor.afterAll (calls ++ [call]) = (executor.afterAll calls).after call := by
  rw [afterAll, List.foldl_append]
  rfl

end Executor

namespace Keeper

/-- The program is that of the last of the calls that made something. A preparation makes something
whenever it can. An execution makes something only if no call before it has, for lack of anything
else to run. -/
def LastMade (keeper : Keeper) (calls : List Call) (source : Program) : Prop :=
  ∃ before call later, calls = before ++ call :: later ∧ call.program = source ∧
    keeper.Builds source ∧
    (call.Prepares ∨ ∀ earlier ∈ before, ¬ keeper.Builds earlier.program) ∧
    ∀ next ∈ later, next.Prepares → ¬ keeper.Builds next.program

variable {keeper : Keeper} {executor : Executor} {calls : List Call} {program source : Program}
  {artefact : Artefact} {error : Error}

/-- Nothing is made of a program that gives an error. -/
theorem not_builds_of_error (hmade : keeper.build program = .error error) :
    ¬ keeper.Builds program := by
  rintro ⟨artefact, hok⟩
  cases hmade.symm.trans hok

/-- A call in a history is the last one, or it is one of those before. -/
theorem split_append_singleton {before later : List Call} {last call : Call}
    (h : calls ++ [last] = before ++ call :: later) :
    (calls = before ∧ last = call ∧ later = []) ∨
      ∃ rest, later = rest ++ [last] ∧ calls = before ++ call :: rest := by
  rcases List.eq_nil_or_concat later with rfl | ⟨rest, final, rfl⟩
  · obtain ⟨hbefore, hcall⟩ := List.append_inj' h rfl
    exact .inl ⟨hbefore, List.head_eq_of_cons_eq hcall, rfl⟩
  · rw [List.concat_eq_append, ← List.cons_append, ← List.append_assoc] at h
    obtain ⟨hbefore, hcall⟩ := List.append_inj' h rfl
    obtain rfl := List.head_eq_of_cons_eq hcall
    exact .inr ⟨rest, List.concat_eq_append, hbefore⟩

/-- A preparation that makes something makes it last. -/
theorem lastMade_append_prepare (hbuilds : keeper.Builds program) :
    keeper.LastMade (calls ++ [.prepare program]) source ↔ source = program := by
  constructor
  · rintro ⟨before, call, later, heq, rfl, -, -, hlater⟩
    rcases split_append_singleton heq with ⟨-, rfl, -⟩ | ⟨rest, rfl, -⟩
    · rfl
    · -- the preparation would come after the last call that made something
      exact absurd hbuilds (hlater (.prepare program) (by simp) trivial)
  · rintro rfl
    exact ⟨calls, .prepare source, [], rfl, rfl, hbuilds, .inl trivial, by simp⟩

/-- An execution that makes something is the first call to do so. -/
theorem lastMade_append_execute {fuel : Nat} {input : Input} (hbuilds : keeper.Builds program)
    (hnone : ∀ earlier ∈ calls, ¬ keeper.Builds earlier.program) :
    keeper.LastMade (calls ++ [.execute fuel program input]) source ↔ source = program := by
  constructor
  · rintro ⟨before, made, later, heq, rfl, hmade, -, -⟩
    rcases split_append_singleton heq with ⟨-, rfl, -⟩ | ⟨rest, -, rfl⟩
    · rfl
    · exact absurd hmade (hnone made (by simp))
  · rintro rfl
    exact ⟨calls, .execute fuel source input, [], rfl, rfl, hbuilds, .inr hnone, by simp⟩

/-- A call that makes nothing does not change which call made something last. -/
theorem lastMade_append_of_not {call : Call} (hidle : ¬ keeper.Builds call.program ∨
      ¬ call.Prepares ∧ ∃ earlier ∈ calls, keeper.Builds earlier.program) :
    keeper.LastMade (calls ++ [call]) source ↔ keeper.LastMade calls source := by
  constructor
  · rintro ⟨before, made, later, heq, rfl, hbuilds, hfirst, hlater⟩
    rcases split_append_singleton heq with ⟨rfl, rfl, -⟩ | ⟨rest, rfl, rfl⟩
    · -- the call itself has made nothing
      rcases hidle with hidle | ⟨hprepares, earlier, hmem, hearlier⟩
      · exact absurd hbuilds hidle
      · rcases hfirst with hfirst | hfirst
        · exact absurd hfirst hprepares
        · exact absurd hearlier (hfirst earlier hmem)
    · refine ⟨before, made, rest, rfl, rfl, hbuilds, hfirst, fun next hmem => ?_⟩
      exact hlater next (List.mem_append_left _ hmem)
  · rintro ⟨before, made, later, rfl, rfl, hbuilds, hfirst, hlater⟩
    refine ⟨before, made, later ++ [call], by simp, rfl, hbuilds, hfirst, ?_⟩
    intro next hmem hprepares
    rcases List.mem_append.mp hmem with hmem | hmem
    · exact hlater next hmem hprepares
    · obtain rfl := List.mem_singleton.mp hmem
      rcases hidle with hidle | ⟨hnot, -⟩
      · exact hidle
      · exact absurd hprepares hnot

/-- What an executor keeps after some calls. -/
structure Holds (keeper : Keeper) (calls : List Call) (executor : Executor) : Prop where
  /-- The executor is of its kind. -/
  follows : keeper.Follows executor
  /-- What is kept is made of the program of the last call that made something. -/
  kept?_iff : ∀ artefact, executor.kept? = some artefact ↔
    ∃ source, keeper.LastMade calls source ∧ keeper.build source = .ok artefact
  /-- Nothing is kept as long as nothing could be made. -/
  kept?_none : executor.kept? = none ↔ ∀ call ∈ calls, ¬ keeper.Builds call.program

/-- Nothing is kept before the first call. -/
theorem holds_fresh (keeper : Keeper) : keeper.Holds [] keeper.fresh := by
  refine ⟨keeper.follows_fresh, fun artefact => ?_, by simp [kept?_fresh]⟩
  rw [kept?_fresh]
  constructor
  · rintro ⟨⟩
  · rintro ⟨source, ⟨before, call, later, heq, -⟩, -⟩
    simp at heq

namespace Holds

/-- A call that makes nothing leaves what was kept. -/
theorem append_of_same {call : Call} {next : Executor} (h : keeper.Holds calls executor)
    (hfollows : keeper.Follows next) (hkept : next.kept? = executor.kept?)
    (hidle : ¬ keeper.Builds call.program ∨
      ¬ call.Prepares ∧ ∃ earlier ∈ calls, keeper.Builds earlier.program) :
    keeper.Holds (calls ++ [call]) next := by
  refine ⟨hfollows, fun artefact => ?_, ?_⟩
  · simp only [hkept, h.kept?_iff, lastMade_append_of_not hidle]
  · rw [hkept, h.kept?_none]
    simp only [List.forall_mem_append, List.forall_mem_singleton]
    constructor
    · intro hnone
      refine ⟨hnone, ?_⟩
      rcases hidle with hidle | ⟨-, earlier, hmem, hearlier⟩
      · exact hidle
      · exact absurd hearlier (hnone earlier hmem)
    · rintro ⟨hnone, -⟩
      exact hnone

/-- A call that makes something replaces what was kept. -/
theorem append_of_made {call : Call} {next : Executor} (hfollows : keeper.Follows next)
    (hkept : next.kept? = some artefact) (hmade : keeper.build call.program = .ok artefact)
    (hlast : ∀ source, keeper.LastMade (calls ++ [call]) source ↔ source = call.program) :
    keeper.Holds (calls ++ [call]) next := by
  refine ⟨hfollows, fun artefact' => ?_, ?_⟩
  · simp only [hkept, hlast, exists_eq_left, hmade, Option.some.injEq, Except.ok.injEq]
  · simp only [hkept, reduceCtorEq, false_iff]
    intro hnone
    exact hnone call (by simp) ⟨artefact, hmade⟩

/-- What is kept after one more call. -/
theorem after (h : keeper.Holds calls executor) (call : Call) :
    keeper.Holds (calls ++ [call]) (executor.after call) := by
  cases call with
  | prepare program =>
    rw [Executor.after]
    cases hmade : keeper.build program with
    | ok artefact =>
      obtain ⟨-, hkept, hfollows⟩ := prepare_of_ok h.follows hmade
      exact append_of_made hfollows hkept hmade fun _ => lastMade_append_prepare ⟨artefact, hmade⟩
    | error error =>
      rw [prepare_of_error h.follows hmade]
      exact h.append_of_same h.follows rfl (.inl (not_builds_of_error hmade))
  | execute fuel program input =>
    rw [Executor.after]
    cases hkept : executor.kept? with
    | some artefact =>
      -- what is kept is run, and an earlier call has made it
      obtain ⟨hruns, -⟩ := execute_of_used_ok h.follows (used_of_some hkept program) fuel input
      have hearlier : ∃ earlier ∈ calls, keeper.Builds earlier.program := by
        by_contra hnone
        push Not at hnone
        rw [h.kept?_none.mpr hnone] at hkept
        cases hkept
      exact h.append_of_same hruns.follows (hruns.kept?_eq.trans hkept.symm) (.inr ⟨id, hearlier⟩)
    | none =>
      have hused := @used_of_none keeper executor hkept program
      -- nothing is kept, so the execution makes what it runs
      cases hmade : keeper.build program with
      | ok artefact =>
        obtain ⟨hruns, -⟩ := execute_of_used_ok h.follows (hused.trans hmade) fuel input
        exact append_of_made hruns.follows hruns.kept?_eq hmade fun _ =>
          lastMade_append_execute ⟨artefact, hmade⟩ (h.kept?_none.mp hkept)
      | error error =>
        rw [(execute_of_used_error h.follows (hused.trans hmade) fuel input).1]
        exact h.append_of_same h.follows rfl (.inl (not_builds_of_error hmade))

end Holds

/-- What is kept after any calls. -/
theorem holds_afterAll (keeper : Keeper) (calls : List Call) :
    keeper.Holds calls (keeper.fresh.afterAll calls) := by
  -- calls are added at the end of the history
  induction calls using List.reverseRecOn with
  | nil => exact keeper.holds_fresh
  | append_singleton calls call ih =>
    rw [Executor.afterAll_append_singleton]
    exact ih.after call

/-! ### What the next call does -/

/-- The execution of a program on an input runs, on a fresh tape, what was made of another
program. -/
structure RunsFor (keeper : Keeper) (executor : Executor) (fuel : Nat) (program : Program)
    (input : Input) (source : Program) : Prop where
  /-- The result is that of what the execution does to a fresh machine. -/
  result_eq : (executor.execute fuel program input).result =
    (executor.perform fuel program (Executor.freshMachine input)).result?
  /-- The output is that of what the execution does to a fresh machine. -/
  output_eq : (executor.execute fuel program input).output =
    ((executor.perform fuel program (Executor.freshMachine input)).state?.map
      (·.output.bytes)).getD #[]
  /-- With a jump table, the named program runs with the table of the other one. -/
  table : keeper = .jumpTable → ∃ table, source.resolveJumps = .ok table ∧
    executor.perform fuel program (Executor.freshMachine input) =
      Tabled.runWith program table fuel (Executor.freshMachine input)
  /-- With anything else, what runs is what an executor that has not been used runs for the other
  program. -/
  fresh : keeper ≠ .jumpTable →
    executor.perform fuel program (Executor.freshMachine input) =
        keeper.fresh.perform fuel source (Executor.freshMachine input) ∧
      (executor.execute fuel program input).result =
        (keeper.fresh.execute fuel source input).result ∧
      (executor.execute fuel program input).output =
        (keeper.fresh.execute fuel source input).output ∧
      (executor.execute fuel program input).profile =
        (keeper.fresh.execute fuel source input).profile

/-- What an executor does after some calls. -/
structure Serves (keeper : Keeper) (calls : List Call) (executor : Executor) : Prop where
  /-- What is kept is made of the program of the last call that made something. -/
  kept?_iff : ∀ artefact, executor.kept? = some artefact ↔
    ∃ source, keeper.LastMade calls source ∧ keeper.build source = .ok artefact
  /-- A preparation that fails returns its error and changes nothing. -/
  prepare_error : ∀ program error, keeper.build program = .error error →
    executor.prepare program = (.error error, executor)
  /-- A preparation that succeeds replaces what is kept. -/
  prepare_ok : ∀ program artefact, keeper.build program = .ok artefact →
    (executor.prepare program).1 = .ok () ∧ (executor.prepare program).2.kept? = some artefact
  /-- An execution does not replace what is kept. -/
  execute_keeps : ∀ artefact fuel program input, executor.kept? = some artefact →
    (executor.execute fuel program input).executor.kept? = some artefact
  /-- Once something is kept, something is kept from then on. -/
  keeps : ∀ more, executor.kept? ≠ none → (executor.afterAll more).kept? ≠ none
  /-- An execution has something to run, unless nothing is kept and nothing can be made. -/
  execute_cases : ∀ fuel program input,
    (∃ source, keeper.LastMade (calls ++ [.execute fuel program input]) source) ∨
      executor.kept? = none ∧ ∃ error, keeper.build program = .error error
  /-- An execution that has nothing to run returns the error; nothing is read or written. -/
  execute_error : ∀ fuel program input error, executor.kept? = none →
    keeper.build program = .error error →
      executor.execute fuel program input = ⟨executor, some (.error error), #[], none⟩ ∧
        executor.perform fuel program (Executor.freshMachine input) =
          .failed error (Executor.freshMachine input)
  /-- An execution runs what was made of the program of the last call that made something, the
  execution itself included. -/
  execute_runs : ∀ fuel program input source,
    keeper.LastMade (calls ++ [.execute fuel program input]) source →
      keeper.RunsFor executor fuel program input source

/-- An artefact other than a jump table takes no notice of the program that is named. -/
theorem run_eq_of_build (hkeeper : keeper ≠ .jumpTable)
    (hmade : keeper.build source = .ok artefact) (program program' : Program) (fuel : Nat)
    (machine : Machine) :
    artefact.run program fuel machine = artefact.run program' fuel machine := by
  cases keeper with
  | jumpTable => exact absurd rfl hkeeper
  | bytecode options trace =>
    obtain ⟨made, -, rfl⟩ := exists_of_map_eq_ok hmade
    rfl
  | templateJit options descriptors =>
    obtain ⟨made, -, rfl⟩ := exists_of_map_eq_ok hmade
    rfl
  | craneliftJit options descriptors =>
    obtain ⟨made, -, rfl⟩ := exists_of_map_eq_ok hmade
    rfl

/-- An execution that has an artefact runs it for the program that it was made of. -/
theorem runsFor_of_used (h : keeper.Follows executor)
    (hused : keeper.used executor program = .ok artefact)
    (hmade : keeper.build source = .ok artefact) (fuel : Nat) (input : Input) :
    keeper.RunsFor executor fuel program input source := by
  obtain ⟨hruns, hperform⟩ := execute_of_used_ok h hused fuel input
  refine ⟨?_, ?_, ?_, ?_⟩
  · rw [hperform, hruns.result_eq]
  · rw [hperform, hruns.output_eq]
  · rintro rfl
    obtain ⟨table, htable, rfl⟩ := exists_of_map_eq_ok hmade
    exact ⟨table, htable, hperform⟩
  · intro hkeeper
    -- an executor that has not been used makes the artefact of the other program
    have hfresh := (used_of_none keeper.kept?_fresh source).trans hmade
    obtain ⟨hruns', hperform'⟩ := execute_of_used_ok keeper.follows_fresh hfresh fuel input
    have hsame := run_eq_of_build hkeeper hmade program source fuel (Executor.freshMachine input)
    refine ⟨?_, ?_, ?_, ?_⟩
    · rw [hperform, hperform', hsame]
    · rw [hruns.result_eq, hruns'.result_eq, hsame]
    · rw [hruns.output_eq, hruns'.output_eq, hsame]
    · rw [hruns.profile_eq, hruns'.profile_eq]

/-- An executor that keeps something does the following after any calls, whatever programs they
named. A preparation that fails changes nothing, and an execution never replaces what is kept. So an
execution runs what was made of the program of the last preparation that succeeded, where the first
execution counts as a preparation of its own program if there was none; and what it does on its
fresh tape is what an executor that has not been used does for that program. A jump table alone is
used for the program that is named. -/
theorem serves_afterAll (keeper : Keeper) (calls : List Call) :
    keeper.Serves calls (keeper.fresh.afterAll calls) := by
  have hholds := keeper.holds_afterAll calls
  refine ⟨hholds.kept?_iff, ?_, ?_, ?_, ?_, ?_, ?_, ?_⟩
  · intro program error hmade
    exact prepare_of_error hholds.follows hmade
  · intro program artefact hmade
    obtain ⟨hresult, hkept, -⟩ := prepare_of_ok hholds.follows hmade
    exact ⟨hresult, hkept⟩
  · intro artefact fuel program input hkept
    exact (execute_of_used_ok hholds.follows (used_of_some hkept program) fuel input).1.kept?_eq
  · intro more hkept hnone
    apply hkept
    -- if nothing is kept later, no call has made anything so far
    have hmore := keeper.holds_afterAll (calls ++ more)
    rw [Executor.afterAll, List.foldl_append] at hmore
    rw [hholds.kept?_none]
    intro call hmem
    exact hmore.kept?_none.mp hnone call (List.mem_append_left more hmem)
  · intro fuel program input
    have hnext := hholds.after (.execute fuel program input)
    cases hkept : (keeper.fresh.afterAll calls).kept? with
    | none =>
      cases hmade : keeper.build program with
      | error error => exact .inr ⟨rfl, error, rfl⟩
      | ok artefact =>
        exact .inl ⟨program,
          (lastMade_append_execute ⟨artefact, hmade⟩ (hholds.kept?_none.mp hkept)).mpr rfl⟩
    | some artefact =>
      have hruns :=
        (execute_of_used_ok hholds.follows (used_of_some hkept program) fuel input).1
      obtain ⟨source, hlast, -⟩ := (hnext.kept?_iff artefact).mp hruns.kept?_eq
      exact .inl ⟨source, hlast⟩
  · intro fuel program input error hkept hmade
    exact execute_of_used_error hholds.follows ((used_of_none hkept program).trans hmade) fuel input
  · intro fuel program input source hlast
    obtain ⟨artefact, hmade⟩ : keeper.Builds source := by
      obtain ⟨-, -, -, -, -, hbuilds, -⟩ := hlast
      exact hbuilds
    have hkept := ((hholds.after (.execute fuel program input)).kept?_iff artefact).mpr
      ⟨source, hlast, hmade⟩
    cases hused : keeper.used (keeper.fresh.afterAll calls) program with
    | ok found =>
      -- what is kept afterwards is what was run
      have hruns := (execute_of_used_ok hholds.follows hused fuel input).1
      obtain rfl : found = artefact := Option.some.inj (hruns.kept?_eq.symm.trans hkept)
      exact runsFor_of_used hholds.follows hused hmade fuel input
    | error error =>
      -- nothing is run, so nothing new is kept
      rw [Executor.after, (execute_of_used_error hholds.follows hused fuel input).1] at hkept
      rw [used_of_some hkept] at hused
      cases hused

end Keeper

end TapeLang

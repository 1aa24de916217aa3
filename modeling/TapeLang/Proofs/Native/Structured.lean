import Mathlib.Logic.Function.Iterate
import TapeLang.Native.Block
import TapeLang.Proofs.Errors
import TapeLang.Proofs.Execution

/-!
# Structured execution with fuel

`Block.exec` is structured execution as it is computed, cut off by fuel, and `Block.Exec` is the
same as a relation. That the two agree is shown here, and that executions of a block with two
meanings of its items go alike if the items do.

* `Block.endsWith_exec_iff`: a computed execution ends with an outcome if and only if there is an
  execution to it.
* `Block.alike_exec`: executions on machines that are related go alike.
* `Machine.Quiet`: the machines on which input and output never fail.
-/

namespace TapeLang

/-- What the caller of native code sees of how it ends: if it has failed, the data pointer is where
it was before the call. -/
def Outcome.afterCall (pointer : Fin tapeSize) : Outcome Machine → Outcome Machine
  | .done machine => .done machine
  | .failed error machine => .failed error (machine.mapTape ({ · with pointer }))
  | .unfinished => .unfinished

/-- A call comes to its end if the code does. -/
theorem Outcome.terminates_afterCall {outcome : Outcome Machine} {pointer : Fin tapeSize} :
    (outcome.afterCall pointer).Terminates ↔ outcome.Terminates := by
  cases outcome with
  | done machine => exact ⟨fun _ => nofun, fun _ => nofun⟩
  | failed error machine => exact ⟨fun _ => nofun, fun _ => nofun⟩
  | unfinished => exact ⟨fun h => absurd rfl h, fun h => absurd rfl h⟩

/-- The machine whose pointer stands on the first cell. -/
def Machine.atOrigin (machine : Machine) : Machine :=
  machine.mapTape ({ · with pointer := Tape.origin })

/-- A call of native code executes it from the first cell on. -/
theorem Block.call_eq (descriptors : Descriptors) (fuel : Nat) (block : Block Op)
    (machine : Machine) :
    block.call descriptors fuel machine =
      (block.exec (Op.actNative descriptors) fuel machine.atOrigin).afterCall
        machine.tape.pointer := rfl

namespace Block

variable {α : Type} {act act' : α → Machine → Outcome Machine} {block : Block α} {fuel more : Nat}
  {machine machine' : Machine} {outcome : Outcome Machine}

/-- An execution that has ended ends in the same way with more fuel. -/
theorem exec_le (hle : fuel ≤ more) (hend : (block.exec act fuel machine).Terminates) :
    block.exec act more machine = block.exec act fuel machine := by
  induction fuel generalizing more block machine with
  | zero => exact absurd rfl hend
  | succ fuel ih =>
    obtain ⟨more, rfl⟩ : ∃ k, more = k + 1 := ⟨more - 1, by omega⟩
    have hle' : fuel ≤ more := by omega
    cases block with
    | done => rfl
    | op item rest =>
      rw [exec] at hend
      rw [exec, exec]
      cases hact : act item machine with
      | done next =>
        rw [hact] at hend
        exact ih hle' hend
      | failed error stopped => rfl
      | unfinished => rfl
    | loop body rest =>
      rw [exec] at hend
      rw [exec, exec]
      by_cases hzero : machine.tape.current = 0
      · rw [if_pos hzero] at hend
        rw [if_pos hzero, if_pos hzero]
        exact ih hle' hend
      · rw [if_neg hzero] at hend
        rw [if_neg hzero, if_neg hzero]
        -- the round has ended, or the whole execution would not have
        have hbody : (body.exec act fuel machine).Terminates := by
          intro hunfinished
          rw [hunfinished] at hend
          exact hend rfl
        rw [ih hle' hbody]
        cases hexec : body.exec act fuel machine with
        | done next =>
          rw [hexec] at hend
          exact ih hle' hend
        | failed error stopped => rfl
        | unfinished => rfl

/-- What is computed of a block is an execution of it. -/
theorem exists_exec_of_terminates (hend : (block.exec act fuel machine).Terminates)
    {start position : Nat} (hmeets : block.Meets start ⟨position, machine⟩) :
    ∃ visited outcome, Exec act start block ⟨position, machine⟩ visited outcome ∧
      outcome.map (·.machine) = block.exec act fuel machine := by
  induction fuel generalizing block machine start position with
  | zero => exact absurd rfl hend
  | succ fuel ih =>
    cases block with
    | done =>
      obtain rfl : position = start := hmeets
      exact ⟨_, _, .done, rfl⟩
    | op item rest =>
      obtain rfl : position = start := hmeets
      rw [exec] at hend ⊢
      cases hact : act item machine with
      | done next =>
        rw [hact] at hend
        obtain ⟨visited, outcome, hrest, houtcome⟩ := ih hend (meets_start (position + 1) rest next)
        exact ⟨_, outcome, .op hact hrest, houtcome⟩
      | failed error stopped => exact ⟨_, _, .opFails hact, rfl⟩
      | unfinished =>
        rw [hact] at hend
        exact absurd rfl hend
    | loop body rest =>
      rw [exec] at hend ⊢
      by_cases hzero : machine.tape.current = 0
      · rw [if_pos hzero] at hend ⊢
        obtain ⟨visited, outcome, hrest, houtcome⟩ :=
          ih hend (meets_start (start + body.size + 2) rest machine)
        exact ⟨_, outcome, .leave hmeets hzero hrest, houtcome⟩
      · rw [if_neg hzero] at hend ⊢
        have hbody : (body.exec act fuel machine).Terminates := by
          intro hunfinished
          rw [hunfinished] at hend
          exact hend rfl
        -- the rest of the loop is met at its end, where the round has come to
        obtain ⟨inner, reached, hround, hreached⟩ := ih hbody (meets_start (start + 1) body machine)
        rw [← hreached] at hend ⊢
        cases reached with
        | done next =>
          obtain ⟨visited, outcome, hagain, houtcome⟩ := ih hend hround.tests
          exact ⟨_, outcome, .round hmeets hzero hround hagain, houtcome⟩
        | failed error stopped => exact ⟨_, _, .roundFails hmeets hzero hround, rfl⟩
        | unfinished => exact absurd rfl hround.terminates

/-- An execution of a block is computed with enough fuel. -/
theorem Exec.exists_fuel {start : Nat} {config : Config} {visited : List Config}
    {outcome : Outcome Config} (h : Exec act start block config visited outcome) :
    ∃ fuel, block.exec act fuel config.machine = outcome.map (·.machine) := by
  induction h with
  | done => exact ⟨1, rfl⟩
  | op hact _ ih =>
    obtain ⟨fuel, hfuel⟩ := ih
    exact ⟨fuel + 1, by rw [exec, hact]; exact hfuel⟩
  | opFails hact => exact ⟨1, by rw [exec, hact]; rfl⟩
  | leave _ hzero _ ih =>
    obtain ⟨fuel, hfuel⟩ := ih
    exact ⟨fuel + 1, by rw [exec, if_pos hzero]; exact hfuel⟩
  | @round start position body rest machine next inner visited outcome _ hne _ hagain ihbody
      ihagain =>
    -- the fuel for the round and the fuel for the rest need not be the same
    obtain ⟨fuel, hfuel⟩ := ihbody
    obtain ⟨fuel', hfuel'⟩ := ihagain
    have hround : body.exec act (max fuel fuel') machine = .done next.machine := by
      rw [exec_le (Nat.le_max_left fuel fuel') (by rw [hfuel]; rintro ⟨⟩), hfuel]
      rfl
    have hend : ((loop body rest).exec act fuel' next.machine).Terminates := by
      rw [hfuel']
      exact Outcome.terminates_map.mpr hagain.terminates
    refine ⟨max fuel fuel' + 1, ?_⟩
    rw [exec, if_neg hne, hround, Outcome.bind_done, exec_le (Nat.le_max_right fuel fuel') hend,
      hfuel']
  | roundFails _ hne _ ih =>
    obtain ⟨fuel, hfuel⟩ := ih
    exact ⟨fuel + 1, by rw [exec, if_neg hne, hfuel]; rfl⟩

/-- A computed execution ends with an outcome if and only if there is an execution to it. -/
theorem endsWith_exec_iff (start : Nat) :
    EndsWith (block.exec act · machine) outcome ↔
      ∃ visited final, Exec act start block ⟨start, machine⟩ visited final ∧
        final.map (·.machine) = outcome := by
  constructor
  · rintro ⟨hend, fuel, rfl⟩
    exact exists_exec_of_terminates hend (meets_start start block machine)
  · rintro ⟨visited, final, hexec, rfl⟩
    exact ⟨Outcome.terminates_map.mpr hexec.terminates, hexec.exists_fuel⟩

end Block

/-- Repeating a step that never fails never fails. -/
theorem Outcome.iterate_done {σ : Type} (step : σ → σ) (count : Nat) (state : σ) :
    iterate (fun state => .done (step state)) count state = .done (step^[count] state) := by
  induction count generalizing state with
  | zero => rfl
  | succ count ih => rw [iterate_succ, bind_done, ih, Function.iterate_succ_apply]

/-- In native code an op that reads and writes nothing does what it does elsewhere. -/
theorem Op.actNative_of_silent {op : Op} (h : op.Silent) (descriptors : Descriptors)
    (machine : Machine) : op.actNative descriptors machine = op.act machine := by
  cases op with
  | write count => exact h.elim
  | read count => exact h.elim
  | _ => rfl

/-- In native code an op fails because it leads off the tape. -/
theorem Op.offTape_of_actNative {descriptors : Descriptors} {op : Op} {machine stopped : Machine}
    {error : Error} (h : op.actNative descriptors machine = .failed error stopped) :
    error.OffTape := by
  by_cases hsilent : op.Silent
  · rw [actNative_of_silent hsilent] at h
    exact offTape_of_act hsilent h
  · cases op with
    | write count =>
      rw [actNative, Outcome.iterate_done] at h
      cases h
    | read count =>
      rw [actNative, Outcome.iterate_done] at h
      cases h
    | _ => exact absurd trivial hsilent

/-- An execution in native code fails because it leads off the tape. -/
theorem Block.offTape_of_endsWith {descriptors : Descriptors} {block : Block Op}
    {machine stopped : Machine} {error : Error}
    (h : EndsWith (block.exec (Op.actNative descriptors) · machine) (.failed error stopped)) :
    error.OffTape := by
  obtain ⟨visited, final, hexec, hfinal⟩ := (endsWith_exec_iff 0).mp h
  cases final with
  | done final => cases hfinal
  | unfinished => cases hfinal
  | failed error' final =>
    cases hfinal
    obtain ⟨op, machine, hact⟩ := hexec.exists_of_failed
    exact Op.offTape_of_actNative hact

section Alike

variable {σ τ : Type} {related : σ → τ → Prop}

/-- Two outcomes are alike: both are known or both are not, an error is the same, and the states are
related. -/
def Outcome.Alike (related : σ → τ → Prop) : Outcome σ → Outcome τ → Prop
  | .done state, .done other => related state other
  | .failed error state, .failed error' other => error = error' ∧ related state other
  | .unfinished, .unfinished => True
  | _, _ => False

/-- Outcomes stay alike if what follows them is alike. -/
theorem Outcome.Alike.bind {outcome : Outcome σ} {outcome' : Outcome τ} {next : σ → Outcome σ}
    {next' : τ → Outcome τ} (h : outcome.Alike related outcome')
    (hnext : ∀ state other, related state other → (next state).Alike related (next' other)) :
    (outcome.bind next).Alike related (outcome'.bind next') := by
  cases outcome with
  | done state =>
    cases outcome' with
    | done other => exact hnext state other h
    | failed error other => exact h.elim
    | unfinished => exact h.elim
  | failed error state =>
    cases outcome' with
    | failed error' other => exact h
    | done other => exact h.elim
    | unfinished => exact h.elim
  | unfinished =>
    cases outcome' with
    | unfinished => exact h
    | done other => exact h.elim
    | failed error other => exact h.elim

/-- Outcomes that are alike are the same through views that do not tell related states apart. -/
theorem Outcome.Alike.map_eq {υ : Type} {outcome : Outcome σ} {outcome' : Outcome τ} {view : σ → υ}
    {view' : τ → υ} (h : outcome.Alike related outcome')
    (hview : ∀ state other, related state other → view state = view' other) :
    outcome.map view = outcome'.map view' := by
  cases outcome with
  | done state =>
    cases outcome' with
    | done other => exact congrArg Outcome.done (hview state other h)
    | failed error other => exact h.elim
    | unfinished => exact h.elim
  | failed error state =>
    cases outcome' with
    | failed error' other => rw [map_failed, map_failed, h.1, hview state other h.2]
    | done other => exact h.elim
    | unfinished => exact h.elim
  | unfinished =>
    cases outcome' with
    | unfinished => rfl
    | done other => exact h.elim
    | failed error other => exact h.elim

/-- Seen as it is, an outcome is itself. -/
theorem Outcome.map_id (outcome : Outcome σ) : outcome.map id = outcome := by
  cases outcome <;> rfl

/-- Repetitions of actions that are alike are alike. -/
theorem Outcome.alike_iterate {action : σ → Outcome σ} {action' : τ → Outcome τ}
    (h : ∀ state other, related state other → (action state).Alike related (action' other))
    (count : Nat) {state : σ} {other : τ} (hrelated : related state other) :
    (iterate action count state).Alike related (iterate action' count other) := by
  induction count generalizing state other with
  | zero => exact hrelated
  | succ count ih =>
    rw [iterate_succ, iterate_succ]
    exact (h state other hrelated).bind fun _ _ hnext => ih hnext

/-- Executions of a block go alike if its items do, provided that related machines have the same
value in their current cells. -/
theorem Block.alike_exec {α : Type} {act act' : α → Machine → Outcome Machine}
    {related : Machine → Machine → Prop}
    (hcurrent : ∀ machine other, related machine other →
      machine.tape.current = other.tape.current)
    (hact : ∀ item machine other, related machine other →
      (act item machine).Alike related (act' item other))
    (fuel : Nat) {block : Block α} {machine other : Machine} (h : related machine other) :
    (block.exec act fuel machine).Alike related (block.exec act' fuel other) := by
  induction fuel generalizing block machine other with
  | zero => trivial
  | succ fuel ih =>
    cases block with
    | done => exact h
    | op item rest => exact (hact item machine other h).bind fun _ _ hnext => ih hnext
    | loop body rest =>
      rw [exec, exec, ← hcurrent machine other h]
      by_cases hzero : machine.tape.current = 0
      · rw [if_pos hzero, if_pos hzero]
        exact ih h
      · rw [if_neg hzero, if_neg hzero]
        exact (ih h).bind fun _ _ hnext => ih hnext

end Alike

/-- Input and output never fail: what is left to read are bytes, and there is room for all that is
written. -/
structure Quiet (input : Input) (output : Output) : Prop where
  /-- Every attempt to read delivers a byte, until there is none left. -/
  plain : ∃ bytes : List UInt8, input.events = bytes.map .byte
  /-- The output takes every byte. -/
  unlimited : output.limit = none

/-- Input and output of a machine never fail. -/
abbrev Machine.Quiet (machine : Machine) : Prop :=
  TapeLang.Quiet machine.input machine.output

/-- The two descriptors name open files. -/
structure Descriptors.Good (descriptors : Descriptors) : Prop where
  input : usable descriptors.input = true
  output : usable descriptors.output = true

/-- None of the two descriptors names an open file. -/
structure Descriptors.Bad (descriptors : Descriptors) : Prop where
  input : usable descriptors.input = false
  output : usable descriptors.output = false

namespace Machine

variable {machine : Machine} {descriptor : Int}

/-- Where input and output never fail, native code writes as the interpreters do. -/
theorem Quiet.write_eq (h : machine.Quiet) (husable : Descriptors.usable descriptor = true) :
    machine.write = .done (machine.writeTo descriptor) ∧ (machine.writeTo descriptor).Quiet := by
  obtain ⟨tape, input, bytes, limit⟩ := machine
  obtain ⟨hplain, rfl⟩ := h
  rw [writeTo, if_pos husable]
  exact ⟨rfl, hplain, rfl⟩

/-- Where input and output never fail, native code reads as the interpreters do. -/
theorem Quiet.read_eq (h : machine.Quiet) (husable : Descriptors.usable descriptor = true) :
    machine.read = .done (machine.readFrom descriptor) ∧ (machine.readFrom descriptor).Quiet := by
  obtain ⟨tape, ⟨events, consumed⟩, output⟩ := machine
  obtain ⟨⟨bytes, rfl⟩, hunlimited⟩ := h
  rw [readFrom, if_pos husable]
  cases bytes with
  | nil => exact ⟨rfl, ⟨[], rfl⟩, hunlimited⟩
  | cons byte bytes => exact ⟨rfl, ⟨bytes, rfl⟩, hunlimited⟩

/-- Nothing is written to a descriptor that names no file. -/
theorem writeTo_of_not_usable (h : Descriptors.usable descriptor = false) (machine : Machine) :
    machine.writeTo descriptor = machine := by
  rw [writeTo, h]
  rfl

/-- Nothing is read from a descriptor that names no file. -/
theorem readFrom_of_not_usable (h : Descriptors.usable descriptor = false) (machine : Machine) :
    machine.readFrom descriptor = machine := by
  rw [readFrom, h]
  rfl

/-- At the end of the input a read changes nothing. -/
theorem read_of_events_eq_nil (h : machine.input.events = []) : machine.read = .done machine := by
  obtain ⟨tape, ⟨events, consumed⟩, output⟩ := machine
  obtain rfl : events = [] := h
  rfl

end Machine

/-- Two machines have the same tape, and their inputs and outputs are related. -/
structure Machine.Shares (related : Input → Output → Input → Output → Prop)
    (machine other : Machine) : Prop where
  tape_eq : machine.tape = other.tape
  channels : related machine.input machine.output other.input other.output

section Ops

variable {related : Input → Output → Input → Output → Prop} {machine other : Machine}
  {descriptors : Descriptors}

/-- What is done on the tape alone is done alike on machines with the same tape. -/
theorem Machine.Shares.onTape (h : machine.Shares related other) (action : Tape → Outcome Tape) :
    (machine.onTape action).Alike (Shares related) (other.onTape action) := by
  obtain ⟨tape, input, output⟩ := machine
  obtain ⟨tape', input', output'⟩ := other
  obtain rfl : tape = tape' := h.tape_eq
  rw [onTape_eq, onTape_eq]
  cases action tape with
  | done tape => exact ⟨rfl, h.channels⟩
  | failed error tape => exact ⟨rfl, rfl, h.channels⟩
  | unfinished => trivial

/-- In native code and elsewhere ops go alike on machines with the same tape, if reading and writing
do. -/
theorem Op.alike_act
    (hwrite : ∀ count, ((Op.write count).actNative descriptors machine).Alike
      (Machine.Shares related) ((Op.write count).act other))
    (hread : ∀ count, ((Op.read count).actNative descriptors machine).Alike
      (Machine.Shares related) ((Op.read count).act other))
    (h : machine.Shares related other) (op : Op) :
    (op.actNative descriptors machine).Alike (Machine.Shares related) (op.act other) := by
  cases op with
  | write count => exact hwrite count
  | read count => exact hread count
  | forward count => exact h.onTape (·.moveBy (signedWord count))
  | backward count => exact h.onTape (·.moveBy (-signedWord count))
  | add count => exact h.onTape fun tape => .done (tape.addCurrent (UInt8.ofNat count))
  | sub count => exact h.onTape fun tape => .done (tape.subCurrent (UInt8.ofNat count))
  | setZero => exact h.onTape fun tape => .done (tape.setCurrent 0)
  | scanUntilZero step => exact h.onTape (·.scanUntilZero step)
  | transferAndZero delta => exact h.onTape (·.transferAndZero delta)
  | jumpIfZero target => exact h
  | jumpIfNotZero target => exact h

end Ops

namespace Block

variable {descriptors : Descriptors} {block : Block Op} {machine other : Machine}

/-- Where input and output never fail, and the descriptors are good, native code does what the
interpreters do. -/
theorem exec_actNative_of_good (hgood : descriptors.Good) (hquiet : machine.Quiet) (fuel : Nat) :
    block.exec (Op.actNative descriptors) fuel machine = block.exec Op.act fuel machine := by
  -- the machines are the same, and input and output keep from failing
  let same : Machine → Machine → Prop :=
    Machine.Shares fun input output input' output' =>
      (input = input' ∧ output = output') ∧ TapeLang.Quiet input output
  have hsame : ∀ {machine other}, same machine other → machine = other := by
    intro machine other h
    exact Machine.ext h.tape_eq h.channels.1.1 h.channels.1.2
  have hact : ∀ op machine other, same machine other →
      (Op.actNative descriptors op machine).Alike same (op.act other) := by
    intro op machine other h
    refine Op.alike_act (fun count => ?_) (fun count => ?_) h op
    · refine Outcome.alike_iterate (fun state other h => ?_) count h
      obtain rfl := hsame h
      obtain ⟨hwrite, hnext⟩ := Machine.Quiet.write_eq h.channels.2 hgood.output
      rw [hwrite]
      exact ⟨rfl, ⟨rfl, rfl⟩, hnext⟩
    · refine Outcome.alike_iterate (fun state other h => ?_) count h
      obtain rfl := hsame h
      obtain ⟨hread, hnext⟩ := Machine.Quiet.read_eq h.channels.2 hgood.input
      rw [hread]
      exact ⟨rfl, ⟨rfl, rfl⟩, hnext⟩
  have halike : (block.exec (Op.actNative descriptors) fuel machine).Alike same
      (block.exec Op.act fuel machine) :=
    alike_exec (fun _ _ h => by rw [hsame h]) hact fuel ⟨rfl, ⟨rfl, rfl⟩, hquiet⟩
  have heq : (block.exec (Op.actNative descriptors) fuel machine).map id =
      (block.exec Op.act fuel machine).map id := halike.map_eq fun _ _ => hsame
  rwa [Outcome.map_id, Outcome.map_id] at heq

/-- If the descriptors are bad, native code does with the tape what the interpreters do when there
is nothing to read, and leaves the input and the output alone. -/
theorem exec_actNative_of_bad (hbad : descriptors.Bad) (htape : machine.tape = other.tape)
    (hinput : other.input.events = []) (houtput : other.output.limit = none) (fuel : Nat) :
    block.exec (Op.actNative descriptors) fuel machine =
      (block.exec Op.act fuel other).map (machine.withTape ·.tape) := by
  -- the tapes are the same; the one side keeps its input and output, the other never reads a byte
  let apart : Machine → Machine → Prop :=
    Machine.Shares fun input output input' output' =>
      (input = machine.input ∧ output = machine.output) ∧ input'.events = [] ∧ output'.limit = none
  have hact : ∀ op machine other, apart machine other →
      (Op.actNative descriptors op machine).Alike apart (op.act other) := by
    intro op machine other h
    refine Op.alike_act (fun count => ?_) (fun count => ?_) h op
    · refine Outcome.alike_iterate (fun state other h => ?_) count h
      obtain ⟨tape, input, bytes, limit⟩ := other
      obtain ⟨htape, hchannels, hevents, rfl⟩ := h
      rw [Machine.writeTo_of_not_usable hbad.output]
      exact ⟨htape, hchannels, hevents, rfl⟩
    · refine Outcome.alike_iterate (fun state other h => ?_) count h
      rw [Machine.readFrom_of_not_usable hbad.input, Machine.read_of_events_eq_nil h.channels.2.1]
      exact h
  have halike : (block.exec (Op.actNative descriptors) fuel machine).Alike apart
      (block.exec Op.act fuel other) :=
    alike_exec (fun _ _ h => by rw [h.tape_eq]) hact fuel
      ⟨htape, ⟨rfl, rfl⟩, hinput, houtput⟩
  rw [← Outcome.map_id (block.exec (Op.actNative descriptors) fuel machine)]
  refine halike.map_eq fun state other h => ?_
  exact Machine.ext h.tape_eq h.channels.1.1 h.channels.1.2

end Block

end TapeLang

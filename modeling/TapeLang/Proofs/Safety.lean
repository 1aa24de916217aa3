import TapeLang.Proofs.BareMachine
import TapeLang.Proofs.Errors
import TapeLang.Proofs.Extent

/-!
# Runs stay on the tape

Any ops may be run: the targets of jumps may lead anywhere, and displacements may be of any size.
On a bare machine nothing but the code keeps the pointer on the tape. It does, in every
configuration of every run, as long as no sum and no opposite leaves the range of words; and in
the streams of programs none does.

## Main definitions

* `BareConfig.Reaches`: the configurations that a run goes through.
* `BareConfig.Intact`: all cells are there, with the pointer on one of them.
* `BareConfig.Fault`: the ways in which an op fails, and what it leaves behind.
* `BareConfig.Safe`: what is promised of each configuration of a run, and `BareConfig.RunsSafely`
  of the run as a whole.

## Main results

* `BareConfig.safe_of_reaches`: the promise is kept in every configuration.
* `Bytecode.stays_on_tape`: every run of any ops from a tape in order runs safely.
-/

namespace TapeLang

namespace BareConfig

/-! ### What is promised -/

/-- The configurations that a run of ops goes through. -/
inductive Reaches (rounds : Nat) (ops : Array Op) (start : BareConfig) : BareConfig → Prop
  | start : Reaches rounds ops start start
  | step {config next : BareConfig} {op : Op} (h : Reaches rounds ops start config)
      (hop : ops[config.position]? = some op)
      (hstep : config.step rounds ops.size op = .ok (.done next)) : Reaches rounds ops start next

/-- No op of the run adds or negates beyond the range of words. -/
def NoOverflow (rounds : Nat) (ops : Array Op) (start : BareConfig) : Prop :=
  ∀ config op trap, Reaches rounds ops start config → ops[config.position]? = some op →
    config.step rounds ops.size op = .error trap → ¬ trap.Overflows

/-- All cells are there, the pointer is on one of them, and the position is that of an op or the
end. -/
structure Intact (ops : Array Op) (config : BareConfig) : Prop where
  /-- The number of cells is that of the tape. -/
  cells_size : config.machine.tape.cells.size = tapeSize
  /-- The pointer is on the tape. -/
  pointer_lt : config.machine.tape.pointer < tapeSize
  /-- The position is in the stream or at its end. -/
  position_le : config.position ≤ ops.size

/-- The op jumps to the target. -/
def TakesJump (config : BareConfig) (op : Op) (target : Nat) : Prop :=
  ∃ value, config.machine.tape.current = .ok value ∧
    (op = .jumpIfZero target ∧ value = 0 ∨ op = .jumpIfNotZero target ∧ value ≠ 0)

/-- The same configuration with the pointer elsewhere. -/
def withPointer (config : BareConfig) (pointer : Nat) : BareConfig :=
  { config with machine.tape.pointer := pointer }

/-- How an op of a stream of `size` ops fails, and the configuration that it leaves behind. -/
inductive Fault (size : Nat) (op : Op) (config : BareConfig) : Error → BareConfig → Prop
  /-- A move or a transfer off the tape has not been begun. -/
  | offTape {index : Int} (houtside : ¬ (0 ≤ index ∧ index < tapeSize)) :
      Fault size op config (.outOfRange index) config
  /-- A scan off the tape has moved the pointer. -/
  | scan {step index : Int} {pointer : Nat} (hscan : op = .scanUntilZero step)
      (houtside : ¬ (0 ≤ index ∧ index < tapeSize)) :
      Fault size op config (.outOfRange index) (config.withPointer pointer)
  /-- An input or output has failed. -/
  | io {text : String} {stopped : BareConfig} {count : Nat}
      (hio : op = .write count ∨ op = .read count) : Fault size op config (.io text) stopped
  /-- A jump that is taken leads out of the stream. -/
  | jump {target : Nat} (htaken : config.TakesJump op target) (houtside : size ≤ target) :
      Fault size op config (.stream (.jumpOutside config.position target size)) config

/-- What is promised of a configuration of a run. -/
structure Safe (rounds : Nat) (ops : Array Op) (config : BareConfig) : Prop where
  /-- The tape is in order. -/
  intact : config.Intact ops
  /-- The op at the position does not trap. -/
  no_trap : ∀ op, ops[config.position]? = some op →
    ∃ outcome, config.step rounds ops.size op = .ok outcome
  /-- An op that fails does so in one of the known ways, and leaves the tape in order. -/
  fault : ∀ op error stopped, ops[config.position]? = some op →
    config.step rounds ops.size op = .ok (.failed error stopped) →
      Fault ops.size op config error stopped ∧ stopped.Intact ops
  /-- A jump out of the stream fails if it is taken. -/
  jump : ∀ op target, ops[config.position]? = some op → config.TakesJump op target →
    ops.size ≤ target → config.step rounds ops.size op =
      .ok (.failed (.stream (.jumpOutside config.position target ops.size)) config)
  /-- Only a scan that stays in place goes on forever. -/
  unfinished : ∀ op, ops[config.position]? = some op →
    config.step rounds ops.size op = .ok .unfinished → op = .scanUntilZero 0

/-- What is promised of a run. -/
structure RunsSafely (rounds : Nat) (ops : Array Op) (start : BareConfig) : Prop where
  /-- Every configuration of the run is safe. -/
  safe : ∀ config, Reaches rounds ops start config → config.Safe rounds ops
  /-- The run never traps. -/
  no_trap : ∀ fuel, ∃ outcome, run rounds ops fuel start = .ok outcome
  /-- A run that comes to its end does so at the end of the stream. -/
  done : ∀ fuel final, run rounds ops fuel start = .ok (.done final) →
    Reaches rounds ops start final ∧ final.position = ops.size
  /-- A run that fails does so at an op of the run that fails. -/
  failed : ∀ fuel error stopped, run rounds ops fuel start = .ok (.failed error stopped) →
    ∃ config op, Reaches rounds ops start config ∧ ops[config.position]? = some op ∧
      Fault ops.size op config error stopped ∧ stopped.Intact ops
  /-- The stream is to blame exactly if a jump of the run leads out of it. -/
  jump_iff : (∃ fuel cause stopped,
      run rounds ops fuel start = .ok (.failed (.stream cause) stopped)) ↔
    ∃ config op target, Reaches rounds ops start config ∧ ops[config.position]? = some op ∧
      config.TakesJump op target ∧ ops.size ≤ target

/-! ### Runs and their configurations -/

section Runs

variable {rounds : Nat} {ops : Array Op} {start reached : BareConfig}

/-- A run goes on from each of its configurations. -/
theorem Reaches.trans_step {next : BareConfig} {op : Op} (hop : ops[start.position]? = some op)
    (hstep : start.step rounds ops.size op = .ok (.done next))
    (h : Reaches rounds ops next reached) : Reaches rounds ops start reached := by
  induction h with
  | start => exact .step .start hop hstep
  | step _ hop' hstep' ih => exact .step ih hop' hstep'

/-- A run ends at the end of the stream or with an op that is not done, unless its fuel is used up
before. -/
theorem exists_reaches_of_run (fuel : Nat) (start : BareConfig) :
    run rounds ops fuel start = .ok .unfinished ∨
      ∃ reached, Reaches rounds ops start reached ∧
        (ops[reached.position]? = none ∧ run rounds ops fuel start = .ok (.done reached) ∨
          ∃ op, ops[reached.position]? = some op ∧
            reached.step rounds ops.size op = run rounds ops fuel start ∧
            ∀ next, run rounds ops fuel start ≠ .ok (.done next)) := by
  -- a step that is done leads to a configuration from which the rest of the fuel is spent
  induction fuel generalizing start with
  | zero => exact .inl rfl
  | succ fuel ih =>
    rw [run]
    split
    · next hnone => exact .inr ⟨start, .start, .inl ⟨hnone, rfl⟩⟩
    · next op hop =>
      cases hstep : start.step rounds ops.size op with
      | error trap => exact .inr ⟨start, .start, .inr ⟨op, hop, hstep, by rintro next ⟨⟩⟩⟩
      | ok outcome =>
        cases outcome with
        | done next =>
          rcases ih next with hcut | ⟨reached, hreaches, hend⟩
          · exact .inl hcut
          · exact .inr ⟨reached, hreaches.trans_step hop hstep, hend⟩
        | failed error stopped =>
          exact .inr ⟨start, .start, .inr ⟨op, hop, hstep, by rintro next ⟨⟩⟩⟩
        | unfinished => exact .inl rfl

/-- With enough fuel a run comes to each of its configurations. -/
theorem exists_run_of_reaches (h : Reaches rounds ops start reached) :
    ∃ used, ∀ fuel, run rounds ops (used + fuel) start = run rounds ops fuel reached := by
  induction h with
  | start => exact ⟨0, fun fuel => by rw [Nat.zero_add]⟩
  | step _ hop hstep ih =>
    obtain ⟨used, hused⟩ := ih
    refine ⟨used + 1, fun fuel => ?_⟩
    rw [Nat.add_assoc, Nat.add_comm 1 fuel, hused, run, hop]
    show goOn _ _ = _
    rw [hstep]
    rfl

end Runs

end BareConfig

/-! ### Steps of the machine -/

section Steps

variable {machine stopped : Machine} {error : Error}

/-- An op that reads or writes is stopped only by an input or output. -/
theorem Op.endsOrIo_act {op : Op} {count : Nat} (hio : op = .write count ∨ op = .read count)
    (machine : Machine) : (op.act machine).EndsOrIo := by
  rcases hio with rfl | rfl
  · exact Outcome.endsOrIo_iterate Machine.endsOrIo_write count machine
  · exact Outcome.endsOrIo_iterate Machine.endsOrIo_read count machine

/-- What an op that fails leaves behind. -/
theorem Op.fault_of_act {size : Nat} {op : Op} {position : Nat}
    (h : op.act machine = .failed error stopped) :
    BareConfig.Fault size op (Config.bare ⟨position, machine⟩) error
      (Config.bare ⟨position, stopped⟩) := by
  cases op with
  | forward count =>
    obtain ⟨rfl, htape⟩ := Machine.of_moveBy_eq_failed h
    obtain ⟨-, rfl, houtside⟩ := Tape.of_moveBy_eq_failed htape
    exact .offTape houtside
  | backward count =>
    obtain ⟨rfl, htape⟩ := Machine.of_moveBy_eq_failed h
    obtain ⟨-, rfl, houtside⟩ := Tape.of_moveBy_eq_failed htape
    exact .offTape houtside
  | write count =>
    obtain ⟨text, rfl⟩ := (endsOrIo_act (.inl rfl) machine).exists_io h
    exact .io (.inl rfl)
  | read count =>
    obtain ⟨text, rfl⟩ := (endsOrIo_act (.inr rfl) machine).exists_io h
    exact .io (.inr rfl)
  | scanUntilZero step =>
    obtain ⟨tape, hscan, rfl⟩ := Machine.exists_of_onTape_eq_failed h
    obtain ⟨index, rfl, houtside⟩ := Tape.offTape_of_scan hscan
    have hcells := Tape.cells_of_scan_eq_failed hscan
    -- only the pointer of the stopped tape is new
    have hstopped : Config.bare ⟨position, machine.withTape tape⟩ =
        (Config.bare ⟨position, machine⟩).withPointer tape.pointer := by
      simp [Config.bare, Machine.bare, Tape.bare, BareConfig.withPointer, Machine.withTape, hcells]
    rw [hstopped]
    exact .scan rfl houtside
  | transferAndZero delta =>
    rw [act] at h
    obtain ⟨tape, htransfer, rfl⟩ := Machine.exists_of_onTape_eq_failed h
    obtain ⟨index, rfl, houtside⟩ := Tape.offTape_of_transferAndZero htransfer
    obtain rfl := Tape.eq_of_transferAndZero_eq_failed htransfer
    exact .offTape houtside
  | add count => cases h
  | sub count => cases h
  | setZero => cases h
  | jumpIfZero target => cases h
  | jumpIfNotZero target => cases h

/-- Only a scan that stays in place is not finished. -/
theorem Op.eq_scan_of_act {op : Op} (h : op.act machine = .unfinished) : op = .scanUntilZero 0 := by
  cases op with
  | forward count => exact absurd h (Machine.moveBy_ne_unfinished machine _)
  | backward count => exact absurd h (Machine.moveBy_ne_unfinished machine _)
  | write count => exact absurd h (endsOrIo_act (.inl rfl) machine).terminates
  | read count => exact absurd h (endsOrIo_act (.inr rfl) machine).terminates
  | scanUntilZero step =>
    rw [act, Machine.onTape_eq] at h
    cases hscan : machine.tape.scanUntilZero step with
    | unfinished => rw [Tape.step_eq_zero_of_scanUntilZero hscan]
    | _ => simp [hscan] at h
  | transferAndZero delta =>
    rw [act, Machine.onTape_eq] at h
    cases htransfer : machine.tape.transferAndZero delta with
    | unfinished => exact absurd htransfer (Tape.transferAndZero_ne_unfinished machine.tape delta)
    | _ => simp [htransfer] at h
  | add count => cases h
  | sub count => cases h
  | setZero => cases h
  | jumpIfZero target => cases h
  | jumpIfNotZero target => cases h

end Steps

namespace Bytecode

variable {ops : Array Op} {size : Nat} {op : Op} {config next stopped : Config} {error : Error}

/-- A step leads to a position of the stream or to its end. -/
theorem position_le_of_step (hlt : config.position < size)
    (h : step size op config = .done next) : next.position ≤ size := by
  cases stepsTo_of_eq h with
  | acted => exact hlt
  | passed => exact hlt
  | taken htakes htarget => exact htarget

/-- A step that fails stays at its position. -/
theorem position_eq_of_step (h : step size op config = .failed error stopped) :
    stopped.position = config.position := by
  cases stepsTo_of_eq h with
  | failed => rfl
  | outside => rfl

/-- A jump of the interpreter is one of the bare machine. -/
theorem takesJump_bare {target : Nat} :
    config.bare.TakesJump op target ↔ Takes config op target := by
  have hcurrent : config.bare.machine.tape.current = .ok config.machine.tape.current :=
    BareTape.current_bare config.machine.tape
  simp [BareConfig.TakesJump, Takes, hcurrent, Config.atZero]

/-- What a step that fails leaves behind. -/
theorem fault_of_step (h : step size op config = .failed error stopped) :
    BareConfig.Fault size op config.bare error stopped.bare := by
  cases stepsTo_of_eq h with
  | failed hside hact => exact Op.fault_of_act hact
  | outside htakes hle => exact .jump (takesJump_bare.mpr htakes) hle

/-- Only a scan that stays in place is not finished. -/
theorem eq_scan_of_step (h : step size op config = .unfinished) : op = .scanUntilZero 0 := by
  cases stepsTo_of_eq h with
  | unfinished hside hact => exact Op.eq_scan_of_act hact

/-- A jump out of the stream fails if it is taken. -/
theorem step_of_takesJump {target : Nat} (htaken : config.bare.TakesJump op target)
    (houtside : size ≤ target) : step size op config =
      .failed (.stream (.jumpOutside config.position target size)) config := by
  have hjump : jump size target config =
      .failed (.stream (.jumpOutside config.position target size)) config := by
    rw [jump, if_neg (Nat.not_lt.mpr houtside)]
  rcases takesJump_bare.mp htaken with ⟨rfl, hzero⟩ | ⟨rfl, hzero⟩
  · rw [step, if_pos hzero, hjump]
  · rw [step, if_neg (Bool.eq_false_iff.mp hzero), hjump]

end Bytecode

/-! ### Runs -/

/-- An op traps on an overflow only. -/
theorem Op.overflows_of_overflows {op : Op} {trap : Trap} (h : op.Overflows trap) :
    trap.Overflows := by
  have hsum (delta : Int) (hsum : trap.OfSum delta) : trap.Overflows := by
    obtain ⟨index, -, rfl⟩ := hsum
    trivial
  cases op with
  | forward count => exact hsum _ h
  | backward count =>
    rcases h with h | ⟨-, rfl⟩
    · exact hsum _ h
    · trivial
  | scanUntilZero step => exact hsum _ h
  | transferAndZero delta => exact hsum _ h
  | _ => exact h.elim

/-- A sum of an index and a short displacement is a word. -/
theorem Trap.not_ofSum {delta : Int} {trap : Trap} {bound : Nat}
    (hbound : bound < 2 ^ 63 - tapeSize) (hle : delta.natAbs ≤ bound) : ¬ trap.OfSum delta := by
  rintro ⟨index, hword, -⟩
  have hindex := index.isLt
  simp only [IsWord, tapeSize] at *
  omega

/-- An op with a short argument meets no overflow. -/
theorem Op.not_overflows_of_within {op : Op} {trap : Trap} {bound : Nat}
    (hbound : bound < 2 ^ 63 - tapeSize) (h : op.Within bound) : ¬ op.Overflows trap := by
  intro hoverflows
  cases op with
  | forward count =>
    obtain ⟨-, hle⟩ : 0 < count ∧ count ≤ bound := h
    rw [Overflows, signedWord_natCast (by omega)] at hoverflows
    exact Trap.not_ofSum hbound (by omega) hoverflows
  | backward count =>
    obtain ⟨-, hle⟩ : 0 < count ∧ count ≤ bound := h
    rw [Overflows, signedWord_natCast (by omega)] at hoverflows
    rcases hoverflows with hsum | ⟨hword, -⟩
    · exact Trap.not_ofSum hbound (by omega) hsum
    · simp only [IsWord] at hword
      omega
  | scanUntilZero step => exact Trap.not_ofSum hbound h.2 hoverflows
  | transferAndZero delta => exact Trap.not_ofSum hbound h.2 hoverflows
  | _ => exact hoverflows

namespace BareConfig

variable {rounds : Nat} {ops : Array Op} {start : Config} {reached : BareConfig}

/-- The tape of a configuration is in order. -/
theorem intact_bare {config : Config} (h : config.position ≤ ops.size) :
    config.bare.Intact ops :=
  ⟨config.machine.tape.cells.size_toArray, config.machine.tape.pointer.isLt, h⟩

/-- Every configuration of a run that is started with a tape is one with a tape. -/
theorem exists_bare_of_reaches (hrounds : tapeSize ≤ rounds) (hstart : start.position ≤ ops.size)
    (h : Reaches rounds ops start.bare reached) :
    ∃ config : Config, config.bare = reached ∧ config.position ≤ ops.size := by
  -- the tape is in order before each step, and so the step refines one that keeps it in order
  induction h with
  | start => exact ⟨start, rfl, hstart⟩
  | step _ hop hstep ih =>
    obtain ⟨config, rfl, -⟩ := ih
    have hlt := (Array.getElem?_eq_some_iff.mp hop).1
    have hmodel := (refines_step hrounds ops.size _ config).of_eq_ok hstep
    -- the step of the machine is done as well, in the configuration that is seen
    match hnext : Bytecode.step ops.size _ config, hmodel with
    | .done next, hmodel =>
      cases hmodel
      exact ⟨next, rfl, Bytecode.position_le_of_step hlt hnext⟩

/-- Every configuration of a run without overflows is safe. -/
theorem safe_of_reaches (hrounds : tapeSize ≤ rounds) (hstart : start.position ≤ ops.size)
    (hno : NoOverflow rounds ops start.bare) (h : Reaches rounds ops start.bare reached) :
    reached.Safe rounds ops := by
  obtain ⟨config, rfl, hle⟩ := exists_bare_of_reaches hrounds hstart h
  -- short of an overflow the bare machine takes the step of the checked one
  have hrefines (op : Op) (hop : ops[config.bare.position]? = some op) :
      config.bare.step rounds ops.size op =
        .ok ((Bytecode.step ops.size op config).map Config.bare) :=
    (refines_step hrounds ops.size op config).eq_ok fun trap htrap hoverflows =>
      hno _ op trap h hop htrap (Op.overflows_of_overflows hoverflows)
  refine ⟨intact_bare hle, fun op hop => ⟨_, hrefines op hop⟩, ?_, ?_, ?_⟩
  · intro op error stopped hop hfailed
    rw [hrefines op hop] at hfailed
    match hstep : Bytecode.step ops.size op config with
    | .failed error' stopped' =>
      rw [hstep] at hfailed
      cases hfailed
      refine ⟨Bytecode.fault_of_step hstep, intact_bare ?_⟩
      rw [Bytecode.position_eq_of_step hstep]
      exact hle
    | .done next => simp [hstep] at hfailed
    | .unfinished => simp [hstep] at hfailed
  · intro op target hop htaken houtside
    rw [hrefines op hop, Bytecode.step_of_takesJump htaken houtside]
    rfl
  · intro op hop hunfinished
    rw [hrefines op hop] at hunfinished
    match hstep : Bytecode.step ops.size op config with
    | .unfinished => exact Bytecode.eq_scan_of_step hstep
    | .done next => simp [hstep] at hunfinished
    | .failed error stopped => simp [hstep] at hunfinished

/-- A run without overflows is safe. -/
theorem runsSafely_of_noOverflow (hrounds : tapeSize ≤ rounds)
    (hstart : start.position ≤ ops.size) (hno : NoOverflow rounds ops start.bare) :
    RunsSafely rounds ops start.bare := by
  have hsafe (config : BareConfig) (h : Reaches rounds ops start.bare config) :=
    safe_of_reaches hrounds hstart hno h
  have hfailures (fuel : Nat) (error : Error) (stopped : BareConfig)
      (hfailed : run rounds ops fuel start.bare = .ok (.failed error stopped)) :
      ∃ config op, Reaches rounds ops start.bare config ∧ ops[config.position]? = some op ∧
        Fault ops.size op config error stopped ∧ stopped.Intact ops := by
    rcases exists_reaches_of_run fuel start.bare with
      hcut | ⟨reached, hreaches, ⟨hnone, hdone⟩ | ⟨op, hop, hstep, hne⟩⟩
    · rw [hcut] at hfailed
      cases hfailed
    · rw [hdone] at hfailed
      cases hfailed
    · rw [hfailed] at hstep
      exact ⟨reached, op, hreaches, hop, (hsafe reached hreaches).fault op _ _ hop hstep⟩
  -- all that is promised of a run is promised of the configuration at which it ends
  refine ⟨hsafe, fun fuel => ?_, fun fuel final hdone => ?_, hfailures, ?_⟩
  · rcases exists_reaches_of_run fuel start.bare with
      hcut | ⟨reached, hreaches, ⟨-, hdone⟩ | ⟨op, hop, hstep, -⟩⟩
    · exact ⟨_, hcut⟩
    · exact ⟨_, hdone⟩
    · obtain ⟨outcome, houtcome⟩ := (hsafe reached hreaches).no_trap op hop
      exact ⟨outcome, hstep ▸ houtcome⟩
  · rcases exists_reaches_of_run fuel start.bare with
      hcut | ⟨reached, hreaches, ⟨hnone, hdone'⟩ | ⟨op, hop, hstep, hne⟩⟩
    · rw [hcut] at hdone
      cases hdone
    · rw [hdone'] at hdone
      cases hdone
      have hle := (hsafe final hreaches).intact.position_le
      have hge := Array.getElem?_eq_none_iff.mp hnone
      exact ⟨hreaches, by omega⟩
    · exact absurd hdone (hne final)
  · constructor
    · rintro ⟨fuel, cause, stopped, hfailed⟩
      obtain ⟨config, op, hreaches, hop, hfault, -⟩ := hfailures fuel _ stopped hfailed
      cases hfault with
      | jump htaken houtside => exact ⟨_, op, _, hreaches, hop, htaken, houtside⟩
    · rintro ⟨config, op, target, hreaches, hop, htaken, houtside⟩
      -- the run that comes to the jump needs one more unit of fuel to take it
      obtain ⟨used, hused⟩ := exists_run_of_reaches hreaches
      refine ⟨used + 1, .jumpOutside config.position target ops.size, config, ?_⟩
      rw [hused, run, hop]
      show goOn _ _ = _
      rw [(hsafe config hreaches).jump op target hop htaken houtside]
      rfl

end BareConfig

/-- Every run of any ops, from a tape with all its cells and the pointer on one of them, stays on
the tape, whatever the jumps of the ops and however long their displacements, as long as no sum and
no opposite leaves the range of words. It is the run of the machine whose tape is in order by its
type. The ops of a program that is shorter than `2 ^ 63` by the length of the tape never leave the
range of words. -/
theorem Bytecode.stays_on_tape {rounds : Nat} {ops : Array Op} {bare : BareMachine}
    (hrounds : tapeSize ≤ rounds) (hcells : bare.tape.cells.size = tapeSize)
    (hpointer : bare.tape.pointer < tapeSize) :
    (BareConfig.NoOverflow rounds ops ⟨0, bare⟩ →
      BareConfig.RunsSafely rounds ops ⟨0, bare⟩ ∧
      ∃ machine : Machine, machine.bare = bare ∧ ∀ fuel, BareConfig.run rounds ops fuel ⟨0, bare⟩ =
        .ok ((runFrom ops fuel ⟨0, machine⟩).map Config.bare)) ∧
    ∀ options program stream, Program.compile options program = .ok stream → stream.ops = ops →
      program.size < 2 ^ 63 - tapeSize → BareConfig.NoOverflow rounds ops ⟨0, bare⟩ := by
  obtain ⟨machine, rfl⟩ := Machine.exists_bare_eq hcells hpointer
  have hstart : (⟨0, machine⟩ : Config).position ≤ ops.size := Nat.zero_le _
  constructor
  · intro hno
    have hsafely := BareConfig.runsSafely_of_noOverflow hrounds hstart hno
    refine ⟨hsafely, machine, rfl, fun fuel => ?_⟩
    obtain ⟨outcome, hrun⟩ := hsafely.no_trap fuel
    have hrefines := BareConfig.refines_run hrounds ops fuel ⟨0, machine⟩
    rw [← hrefines.of_eq_ok hrun]
    exact hrun
  · rintro options program stream hcompile rfl hsize
    intro config op trap hreaches hop htrap
    obtain ⟨config, rfl, -⟩ := BareConfig.exists_bare_of_reaches hrounds hstart hreaches
    -- no argument in the stream is larger than the program, so no sum is
    have hwithin : op.Within program.size :=
      Program.within_of_compile (by simp only [tapeSize] at hsize; omega) hcompile op
        (Array.mem_toList_iff.mpr (Array.mem_of_getElem? hop))
    have hkind := (BareConfig.refines_step hrounds stream.ops.size op config).kind_of_eq_error htrap
    exact absurd hkind (Op.not_overflows_of_within hsize hwithin)

/-- From the first cell of a blank tape a step to the left leads off the tape, and leaves it as it
is. -/
theorem Bytecode.stays_on_tape_leftFromFirst :
    ∃ stream, Program.compile {} ⟨#[.left]⟩ = .ok stream ∧ stream.ops = #[.backward 1] ∧
      BareConfig.NoOverflow tapeSize stream.ops ⟨0, Machine.bare ⟨.blank, .ofBytes [], {}⟩⟩ ∧
      BareConfig.RunsSafely tapeSize stream.ops ⟨0, Machine.bare ⟨.blank, .ofBytes [], {}⟩⟩ ∧
      BareConfig.run tapeSize stream.ops 1 ⟨0, Machine.bare ⟨.blank, .ofBytes [], {}⟩⟩ =
        .ok (.failed (.outOfRange (-1)) ⟨0, Machine.bare ⟨.blank, .ofBytes [], {}⟩⟩) := by
  have hcompile : Program.compile {} ⟨#[.left]⟩ =
      .ok ⟨#[.backward 1], #[0], ⟨0, 0, 0, 0⟩, rfl⟩ := rfl
  have hcells : (Machine.bare ⟨.blank, .ofBytes [], {}⟩).tape.cells.size = tapeSize :=
    Tape.blank.cells.size_toArray
  have hpointer : (Machine.bare ⟨.blank, .ofBytes [], {}⟩).tape.pointer < tapeSize := by decide
  obtain ⟨hsafely, hcompiled⟩ :=
    @stays_on_tape tapeSize #[.backward 1] _ (le_refl tapeSize) hcells hpointer
  have hno := hcompiled {} _ _ hcompile rfl (by decide)
  exact ⟨_, hcompile, rfl, hno, (hsafely hno).1, rfl⟩

end TapeLang

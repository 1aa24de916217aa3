import TapeLang.Proofs.Tape

/-!
# Errors of the machine

What instructions and ops do to a machine fails in two ways only: the data pointer would leave the
tape, or the input or the output fails.

* `Outcome.EndsOrIo`: a computation that only an input or output can stop.
* `Error.OffTape`: the errors of computations on the tape.
* `Error.OfMachine`: the errors of instructions and ops.
* `Instr.ofMachine_of_act` and `Op.ofMachine_of_act`: there are no others.
-/

namespace TapeLang

/-- The computation comes to its end, or an input or output stops it. -/
def Outcome.EndsOrIo {σ : Type} (outcome : Outcome σ) : Prop :=
  (∃ state, outcome = .done state) ∨ ∃ text state, outcome = .failed (.io text) state

/-- A repetition is stopped only by what stops its action. -/
theorem Outcome.endsOrIo_iterate {σ : Type} {action : σ → Outcome σ}
    (h : ∀ state, (action state).EndsOrIo) (count : Nat) (state : σ) :
    (iterate action count state).EndsOrIo := by
  induction count generalizing state with
  | zero => exact .inl ⟨state, rfl⟩
  | succ count ih =>
    rw [iterate_succ]
    rcases h state with ⟨next, hnext⟩ | ⟨text, stopped, hstopped⟩
    · rw [hnext]
      exact ih next
    · rw [hstopped]
      exact .inr ⟨text, stopped, rfl⟩

/-- An output refuses a byte with an error of its own. -/
theorem Output.exists_io_of_write {output : Output} {byte : UInt8} {error : Error}
    (h : output.write byte = .error error) : ∃ text, error = .io text := by
  unfold write at h
  split at h
  · cases h
  · split at h
    · cases h
    · split at h
      · cases h
        exact ⟨_, rfl⟩
      · cases h
        exact ⟨_, rfl⟩
      · cases h

/-- An input fails with an error of its own. -/
theorem Input.exists_io_of_readFrom {consumed : Nat} {events : List InputEvent} {error : Error}
    {input : Input} (h : readFrom consumed events = (.error error, input)) :
    ∃ text, error = .io text := by
  induction events with
  | nil => cases h
  | cons event rest ih =>
    cases event with
    | byte value => cases h
    | interrupted => exact ih h
    | failure text =>
      cases h
      exact ⟨text, rfl⟩

namespace Machine

/-- Writing is stopped only by the output. -/
theorem endsOrIo_write (machine : Machine) : machine.write.EndsOrIo := by
  obtain ⟨tape, input, output⟩ := machine
  cases hwrite : output.write tape.current with
  | ok next => exact .inl ⟨⟨tape, input, next⟩, by simp only [write, hwrite]⟩
  | error error =>
    obtain ⟨text, rfl⟩ := Output.exists_io_of_write hwrite
    exact .inr ⟨text, ⟨tape, input, output⟩, by simp only [write, hwrite]⟩

/-- Reading is stopped only by the input. -/
theorem endsOrIo_read (machine : Machine) : machine.read.EndsOrIo := by
  obtain ⟨tape, input, output⟩ := machine
  cases hread : input.read with
  | mk result rest =>
    cases result with
    | ok value =>
      cases value with
      | none => exact .inl ⟨⟨tape, rest, output⟩, by simp only [read, hread]⟩
      | some byte => exact .inl ⟨⟨tape.setCurrent byte, rest, output⟩, by simp only [read, hread]⟩
    | error error =>
      obtain ⟨text, rfl⟩ := Input.exists_io_of_readFrom hread
      exact .inr ⟨text, ⟨tape, rest, output⟩, by simp only [read, hread]⟩

end Machine

/-- An error of the tape: an index that is not on it. -/
def Error.OffTape (error : Error) : Prop :=
  ∃ index : Int, error = .outOfRange index ∧ ¬ (0 ≤ index ∧ index < tapeSize)

/-- An error of the machine: one of the tape, or a failed input or output. -/
inductive Error.OfMachine : Error → Prop
  | offTape {error : Error} (h : error.OffTape) : OfMachine error
  | io {text : String} : OfMachine (.io text)

/-- A computation that only an input or output can stop is finished. -/
theorem Outcome.EndsOrIo.terminates {σ : Type} {outcome : Outcome σ} (h : outcome.EndsOrIo) :
    outcome.Terminates := by
  rcases h with ⟨state, rfl⟩ | ⟨text, state, rfl⟩ <;> simp [Outcome.Terminates]

/-- A computation that only an input or output can stop fails with an error of theirs. -/
theorem Outcome.EndsOrIo.exists_io {σ : Type} {outcome : Outcome σ} {error : Error} {stopped : σ}
    (h : outcome.EndsOrIo) (hfailed : outcome = .failed error stopped) :
    ∃ text, error = .io text := by
  rcases h with ⟨state, rfl⟩ | ⟨text, state, rfl⟩
  · cases hfailed
  · cases hfailed
    exact ⟨text, rfl⟩

/-- A computation that only an input or output can stop fails with an error of the machine. -/
theorem Outcome.EndsOrIo.ofMachine {σ : Type} {outcome : Outcome σ} {error : Error} {stopped : σ}
    (h : outcome.EndsOrIo) (hfailed : outcome = .failed error stopped) : error.OfMachine := by
  obtain ⟨text, rfl⟩ := h.exists_io hfailed
  exact .io

namespace Tape

variable {tape stopped : Tape} {error : Error}

/-- A move fails because it leads off the tape. -/
theorem offTape_of_moveBy {delta : Int} (h : tape.moveBy delta = .failed error stopped) :
    error.OffTape := by
  obtain ⟨-, herror, hrange⟩ := of_moveBy_eq_failed h
  exact ⟨_, herror, hrange⟩

/-- A scan that fails has failed in a move, before which it has changed no cell. -/
theorem exists_moveBy_of_scan_eq_failed {step : Int} {fuel : Nat}
    (h : scan step fuel tape = .failed error stopped) :
    ∃ last : Tape, last.cells = tape.cells ∧ last.moveBy step = .failed error stopped := by
  induction fuel generalizing tape with
  | zero => cases h
  | succ fuel ih =>
    rw [scan] at h
    split at h
    · cases h
    · cases hmove : tape.moveBy step with
      | done next =>
        rw [hmove] at h
        obtain ⟨last, hcells, hlast⟩ := ih h
        exact ⟨last, hcells.trans (moveBy_eq_done_iff.mp hmove).1, hlast⟩
      | failed error' stopped' =>
        rw [hmove] at h
        cases h
        exact ⟨tape, rfl, hmove⟩
      | unfinished => exact absurd hmove (moveBy_ne_unfinished tape step)

/-- A scan fails because one of its moves leads off the tape. -/
theorem offTape_of_scan {step : Int} {fuel : Nat}
    (h : scan step fuel tape = .failed error stopped) : error.OffTape := by
  obtain ⟨last, -, hlast⟩ := exists_moveBy_of_scan_eq_failed h
  exact offTape_of_moveBy hlast

/-- A scan that fails has changed no cell. -/
theorem cells_of_scan_eq_failed {step : Int} {fuel : Nat}
    (h : scan step fuel tape = .failed error stopped) : stopped.cells = tape.cells := by
  obtain ⟨last, hcells, hlast⟩ := exists_moveBy_of_scan_eq_failed h
  rw [(of_moveBy_eq_failed hlast).1, hcells]

/-- A transfer that fails leaves the tape as it is. -/
theorem eq_of_transferAndZero_eq_failed {delta : Int}
    (h : tape.transferAndZero delta = .failed error stopped) : stopped = tape := by
  unfold transferAndZero at h
  dsimp only at h
  split at h
  · cases h
  · split at h
    · cases h
    · cases h
      rfl

/-- A transfer fails because its target is off the tape. -/
theorem offTape_of_transferAndZero {delta : Int}
    (h : tape.transferAndZero delta = .failed error stopped) : error.OffTape := by
  unfold transferAndZero at h
  dsimp only at h
  split at h
  · cases h
  · cases htarget : tape.offset delta with
    | ok target =>
      rw [htarget] at h
      cases h
    | error error' =>
      rw [htarget] at h
      cases h
      exact ⟨_, of_offset_eq_error htarget⟩

end Tape

namespace Machine

variable {machine stopped : Machine} {error : Error}

/-- A computation on the tape fails as it does without the rest of the machine. -/
theorem exists_of_onTape_eq_failed {action : Tape → Outcome Tape}
    (h : machine.onTape action = .failed error stopped) :
    ∃ tape, action machine.tape = .failed error tape ∧ stopped = machine.withTape tape := by
  rw [onTape_eq] at h
  cases haction : action machine.tape with
  | done tape =>
    rw [haction] at h
    cases h
  | failed error' tape =>
    rw [haction] at h
    cases h
    exact ⟨tape, rfl, rfl⟩
  | unfinished =>
    rw [haction] at h
    cases h

/-- A move of the pointer fails because it leads off the tape. -/
theorem offTape_of_moveBy {delta : Int} (h : machine.moveBy delta = .failed error stopped) :
    error.OffTape := by
  obtain ⟨tape, htape, -⟩ := exists_of_onTape_eq_failed h
  exact Tape.offTape_of_moveBy htape

end Machine

variable {machine stopped : Machine} {error : Error}

/-- An instruction fails with an error of the machine. -/
theorem Instr.ofMachine_of_act {instr : Instr} (h : instr.act machine = .failed error stopped) :
    error.OfMachine := by
  cases instr with
  | right => exact .offTape (Machine.offTape_of_moveBy h)
  | left => exact .offTape (Machine.offTape_of_moveBy h)
  | increment => cases h
  | decrement => cases h
  | write => exact machine.endsOrIo_write.ofMachine h
  | read => exact machine.endsOrIo_read.ofMachine h
  | loopStart => cases h
  | loopEnd => cases h

/-- The op reads and writes nothing. -/
def Op.Silent : Op → Prop
  | .write _ | .read _ => False
  | _ => True

/-- An op that reads and writes nothing fails because it leads off the tape. -/
theorem Op.offTape_of_act {op : Op} (hsilent : op.Silent)
    (h : op.act machine = .failed error stopped) : error.OffTape := by
  cases op with
  | forward count => exact Machine.offTape_of_moveBy h
  | backward count => exact Machine.offTape_of_moveBy h
  | scanUntilZero step =>
    rw [act] at h
    obtain ⟨tape, htape, -⟩ := Machine.exists_of_onTape_eq_failed h
    exact Tape.offTape_of_scan htape
  | transferAndZero delta =>
    rw [act] at h
    obtain ⟨tape, htape, -⟩ := Machine.exists_of_onTape_eq_failed h
    exact Tape.offTape_of_transferAndZero htape
  | write count => exact hsilent.elim
  | read count => exact hsilent.elim
  | _ => cases h

/-- An op fails with an error of the machine. -/
theorem Op.ofMachine_of_act {op : Op} (h : op.act machine = .failed error stopped) :
    error.OfMachine := by
  cases op with
  | write count =>
    exact (Outcome.endsOrIo_iterate Machine.endsOrIo_write count machine).ofMachine h
  | read count =>
    exact (Outcome.endsOrIo_iterate Machine.endsOrIo_read count machine).ofMachine h
  | _ =>
    refine .offTape (offTape_of_act ?_ h)
    trivial

end TapeLang

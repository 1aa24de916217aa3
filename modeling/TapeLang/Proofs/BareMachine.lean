import TapeLang.Interpreter.Bytecode
import TapeLang.Proofs.Tape

/-!
# The bare machine

A `Tape` has all its cells and a pointer on one of them by its very type, and its arithmetic is
that of the integers. This module describes the machine without these guarantees: its cells are a
row of any length, its pointer is any number, and it adds and negates signed 64-bit words. It traps
where it looks up a cell that is not there, and where a sum or an opposite is no word. Whether it
traps is then a question about programs, and not about types.

## Main definitions

* `Trap`: what stops a bare machine on the spot.
* `BareTape`, `BareMachine`, `BareConfig`: the machine without its guarantees.
* `BareConfig.step`, `BareConfig.run`: how it runs an op stream.
* `Op.Overflows`: the traps that the arithmetic of an op can meet.
* `Refines`: a bare computation meets a trap of some kind, or it does what the machine does.

## Main results

* `Machine.exists_bare_eq`: a bare machine with all its cells and its pointer on one of them is a
  machine without its guarantees.
* `BareConfig.refines_step`, `BareConfig.refines_run`: steps and runs of a bare machine refine those
  of the machine, up to the traps that are overflows of the ops. A cell is never missing.
-/

namespace TapeLang

/-- What stops a bare machine on the spot. -/
inductive Trap where
  /-- A cell is looked up at `index` in a row of `size` cells. -/
  | noCell (size index : Nat)
  /-- A sum is no signed word. -/
  | sumOverflow (left right : Int)
  /-- The opposite of a word is no signed word. -/
  | oppositeOverflow (number : Int)
  deriving DecidableEq

/-- The trap is one of the arithmetic, and not of the tape. -/
def Trap.Overflows : Trap → Prop
  | noCell .. => False
  | sumOverflow .. | oppositeOverflow _ => True

/-- The number is a signed 64-bit word. -/
def IsWord (number : Int) : Prop :=
  -0x8000000000000000 ≤ number ∧ number < 0x8000000000000000

instance (number : Int) : Decidable (IsWord number) := by
  unfold IsWord
  infer_instance

/-- The sum of two words. -/
def addWords (left right : Int) : Except Trap Int :=
  if IsWord (left + right) then .ok (left + right) else .error (.sumOverflow left right)

/-- The opposite of a word. -/
def oppositeWord (number : Int) : Except Trap Int :=
  if IsWord (-number) then .ok (-number) else .error (.oppositeOverflow number)

variable {σ τ : Type}

/-- Goes on with `next` where a computation neither traps nor fails. -/
def goOn (first : Except Trap (Outcome σ)) (next : σ → Except Trap (Outcome σ)) :
    Except Trap (Outcome σ) := do
  match ← first with
  | .done state => next state
  | .failed error state => return .failed error state
  | .unfinished => return .unfinished

/-- A row of cells of any length, and any number as the index of the current cell. -/
@[ext]
structure BareTape where
  /-- The cells. -/
  cells : Array UInt8
  /-- The index of the current cell. -/
  pointer : Nat

namespace BareTape

/-- The cell at an index. -/
def load (tape : BareTape) (index : Nat) : Except Trap UInt8 :=
  match tape.cells[index]? with
  | some value => .ok value
  | none => .error (.noCell tape.cells.size index)

/-- Puts a value into the cell at an index. -/
def store (tape : BareTape) (index : Nat) (value : UInt8) : Except Trap BareTape :=
  if index < tape.cells.size then
    .ok { tape with cells := tape.cells.setIfInBounds index value }
  else .error (.noCell tape.cells.size index)

/-- The current cell. -/
def current (tape : BareTape) : Except Trap UInt8 :=
  tape.load tape.pointer

/-- Changes the current cell. -/
def change (tape : BareTape) (change : UInt8 → UInt8) : Except Trap BareTape := do
  tape.store tape.pointer (change (← tape.current))

/-- The index `delta` cells away from the pointer, if it is in the range of the tape. -/
def offset (tape : BareTape) (delta : Int) : Except Trap (Except Error Nat) := do
  let target ← addWords (signedWord tape.pointer) delta
  if target < 0 ∨ tapeSize ≤ target then return .error (.outOfRange target)
  else return .ok target.toNat

/-- Moves the pointer. -/
def moveBy (tape : BareTape) (delta : Int) : Except Trap (Outcome BareTape) := do
  match ← tape.offset delta with
  | .ok index => return .done { tape with pointer := index }
  | .error error => return .failed error tape

/-- Moves the pointer until the current cell is zero, but at most `rounds` times. -/
def scan (step : Int) : Nat → BareTape → Except Trap (Outcome BareTape)
  | 0, _ => return .unfinished
  | rounds + 1, tape => do
    if (← tape.current) = 0 then return .done tape
    else goOn (tape.moveBy step) (scan step rounds)

/-- Adds the current cell to another one and sets it to zero, unless it is zero already. -/
def transferAndZero (tape : BareTape) (delta : Int) : Except Trap (Outcome BareTape) := do
  let value ← tape.current
  if value = 0 then return .done tape
  else
    match ← tape.offset delta with
    | .error error => return .failed error tape
    | .ok target =>
      let added ← tape.store target ((← tape.load target) + value)
      return .done (← added.store added.pointer 0)

end BareTape

/-- A bare tape with an input and an output. -/
@[ext]
structure BareMachine where
  /-- The tape. -/
  tape : BareTape
  /-- Where bytes are read from. -/
  input : Input
  /-- Where bytes are written to. -/
  output : Output

namespace BareMachine

/-- Does something on the tape. -/
def onTape (machine : BareMachine) (action : BareTape → Except Trap (Outcome BareTape)) :
    Except Trap (Outcome BareMachine) :=
  (action machine.tape).map fun outcome => outcome.map fun tape => { machine with tape }

/-- Changes the current cell. -/
def change (machine : BareMachine) (change : UInt8 → UInt8) :
    Except Trap (Outcome BareMachine) := do
  return .done { machine with tape := ← machine.tape.change change }

/-- Writes the current cell. -/
def write (machine : BareMachine) : Except Trap (Outcome BareMachine) := do
  let value ← machine.tape.current
  match machine.output.write value with
  | .ok output => return .done { machine with output }
  | .error error => return .failed error machine

/-- Reads a byte into the current cell; at the end of the input the cell is not touched. -/
def read (machine : BareMachine) : Except Trap (Outcome BareMachine) := do
  match machine.input.read with
  | (.ok (some byte), input) =>
    let tape ← machine.tape.store machine.tape.pointer byte
    return .done { machine with tape, input }
  | (.ok none, input) => return .done { machine with input }
  | (.error error, input) => return .failed error { machine with input }

/-- Does something again and again, as long as it does not fail. -/
def iterate (action : BareMachine → Except Trap (Outcome BareMachine)) :
    Nat → BareMachine → Except Trap (Outcome BareMachine)
  | 0, machine => return .done machine
  | count + 1, machine => goOn (action machine) (iterate action count)

end BareMachine

/-- What an op does to a bare machine. The opposite of a count is taken on words. -/
def Op.actBare (rounds : Nat) (op : Op) (machine : BareMachine) :
    Except Trap (Outcome BareMachine) :=
  match op with
  | .forward count => machine.onTape (·.moveBy (signedWord count))
  | .backward count => do
    let delta ← oppositeWord (signedWord count)
    machine.onTape (·.moveBy delta)
  | .add count => machine.change (· + UInt8.ofNat count)
  | .sub count => machine.change (· - UInt8.ofNat count)
  | .write count => machine.iterate BareMachine.write count
  | .read count => machine.iterate BareMachine.read count
  | .setZero => return .done { machine with tape := ← machine.tape.store machine.tape.pointer 0 }
  | .scanUntilZero step => machine.onTape (BareTape.scan step rounds)
  | .transferAndZero delta => machine.onTape (·.transferAndZero delta)
  | .jumpIfZero _ | .jumpIfNotZero _ => return .done machine

/-- A bare machine and the position at which it goes on. -/
@[ext]
structure BareConfig where
  /-- The position of the next op. -/
  position : Nat
  /-- The machine. -/
  machine : BareMachine

namespace BareConfig

/-- Jumps to the op after the target in a stream of `size` ops. -/
def jump (size target : Nat) (config : BareConfig) : Outcome BareConfig :=
  if target < size then .done { config with position := target + 1 }
  else .failed (.stream (.jumpOutside config.position target size)) config

/-- Goes on to the next position. -/
def advance (config : BareConfig) : BareConfig :=
  { config with position := config.position + 1 }

/-- Goes on behind an op that has come to its end; an error stays where it arises. -/
def settle (config : BareConfig) : Outcome BareMachine → Outcome BareConfig
  | .done machine => .done ⟨config.position + 1, machine⟩
  | .failed error machine => .failed error ⟨config.position, machine⟩
  | .unfinished => .unfinished

/-- Carries out an op in a stream of `size` ops. -/
def step (rounds size : Nat) (op : Op) (config : BareConfig) : Except Trap (Outcome BareConfig) :=
  match op with
  | .jumpIfZero target => do
    if (← config.machine.tape.current) = 0 then return config.jump size target
    else return .done config.advance
  | .jumpIfNotZero target => do
    if (← config.machine.tape.current) = 0 then return .done config.advance
    else return config.jump size target
  | op => (op.actBare rounds config.machine).map config.settle

/-- Runs ops until their end. -/
def run (rounds : Nat) (ops : Array Op) : Nat → BareConfig → Except Trap (Outcome BareConfig)
  | 0, _ => return .unfinished
  | fuel + 1, config =>
    match ops[config.position]? with
    | none => return .done config
    | some op => goOn (config.step rounds ops.size op) (run rounds ops fuel)

end BareConfig

/-! ### The machine without its guarantees -/

/-- The tape without its guarantees. -/
def Tape.bare (tape : Tape) : BareTape := ⟨tape.cells.toArray, tape.pointer⟩

/-- The machine without the guarantees of its tape. -/
def Machine.bare (machine : Machine) : BareMachine :=
  ⟨machine.tape.bare, machine.input, machine.output⟩

/-- The configuration without the guarantees of its tape. -/
def Config.bare (config : Config) : BareConfig := ⟨config.position, config.machine.bare⟩

/-- A row of all the cells with the pointer on one of them is a tape without its guarantees. -/
theorem Tape.exists_bare_eq {bare : BareTape} (hsize : bare.cells.size = tapeSize)
    (hpointer : bare.pointer < tapeSize) : ∃ tape : Tape, tape.bare = bare :=
  ⟨⟨⟨bare.cells, hsize⟩, ⟨bare.pointer, hpointer⟩⟩, rfl⟩

/-- A bare machine with all its cells and its pointer on one of them is a machine without its
guarantees. -/
theorem Machine.exists_bare_eq {bare : BareMachine} (hsize : bare.tape.cells.size = tapeSize)
    (hpointer : bare.tape.pointer < tapeSize) : ∃ machine : Machine, machine.bare = bare := by
  obtain ⟨tape, htape⟩ := Tape.exists_bare_eq hsize hpointer
  refine ⟨⟨tape, bare.input, bare.output⟩, ?_⟩
  rw [Machine.bare, htape]

/-- The trap is the overflow of a sum of the index of a cell and `delta`. -/
def Trap.OfSum (delta : Int) (trap : Trap) : Prop :=
  ∃ index : Fin tapeSize, ¬ IsWord (index + delta) ∧ trap = .sumOverflow index delta

/-- The op meets the trap when its argument, or the sum of a pointer and its argument, is no word.
Only a move to the left takes the opposite of its argument. -/
def Op.Overflows (op : Op) (trap : Trap) : Prop :=
  match op with
  | .forward count => trap.OfSum (signedWord count)
  | .backward count =>
    trap.OfSum (-signedWord count) ∨
      ¬ IsWord (-signedWord count) ∧ trap = .oppositeOverflow (signedWord count)
  | .scanUntilZero delta | .transferAndZero delta => trap.OfSum delta
  | _ => False

/-- A bare computation does what the machine does, unless it meets a trap of the given kind. -/
def Refines (kind : Trap → Prop) (view : σ → τ) (bare : Except Trap (Outcome τ))
    (outcome : Outcome σ) : Prop :=
  bare = .ok (outcome.map view) ∨ ∃ trap, kind trap ∧ bare = .error trap

namespace Refines

variable {σ' τ' : Type} {kind kind' : Trap → Prop} {view : σ → τ} {view' : σ' → τ'}
  {bare : Except Trap (Outcome τ)} {outcome : Outcome σ}

/-- A computation that meets no trap of the kind does what the machine does. -/
theorem eq_ok (h : Refines kind view bare outcome)
    (hfree : ∀ trap, bare = .error trap → ¬ kind trap) : bare = .ok (outcome.map view) := by
  rcases h with h | ⟨trap, hkind, htrap⟩
  · exact h
  · exact absurd hkind (hfree trap htrap)

/-- A computation meets traps of no other kind. -/
theorem kind_of_eq_error {trap : Trap} (h : Refines kind view bare outcome)
    (htrap : bare = .error trap) : kind trap := by
  rcases h with rfl | ⟨trap', hkind, rfl⟩
  · cases htrap
  · cases htrap
    exact hkind

/-- Where a bare computation gives an outcome, it is the outcome of the machine. -/
theorem of_eq_ok {reached : Outcome τ} (h : Refines kind view bare outcome)
    (hok : bare = .ok reached) : reached = outcome.map view := by
  rcases h with rfl | ⟨trap, -, rfl⟩
  · exact (Except.ok.inj hok).symm
  · cases hok

/-- A refinement up to some traps is one up to more of them. -/
theorem mono (h : Refines kind view bare outcome) (hkind : ∀ trap, kind trap → kind' trap) :
    Refines kind' view bare outcome := by
  rcases h with h | ⟨trap, htrap, herror⟩
  · exact .inl h
  · exact .inr ⟨trap, hkind trap htrap, herror⟩

/-- Computations that refine part by part refine as a whole. -/
theorem goOn {next : τ → Except Trap (Outcome τ)} {next' : σ → Outcome σ}
    (h : Refines kind view bare outcome)
    (hnext : ∀ state, Refines kind view (next (view state)) (next' state)) :
    Refines kind view (TapeLang.goOn bare next) (outcome.bind next') := by
  rcases h with rfl | ⟨trap, hkind, rfl⟩
  · cases outcome with
    | done state => exact hnext state
    | failed error state => exact .inl rfl
    | unfinished => exact .inl rfl
  · exact .inr ⟨trap, hkind, rfl⟩

/-- What is made of a refining computation refines if it is made of its outcome alone. -/
theorem map (shape : Outcome σ → Outcome σ') (shape' : Outcome τ → Outcome τ')
    (h : Refines kind view bare outcome)
    (hshape : shape' (outcome.map view) = (shape outcome).map view') :
    Refines kind view' (bare.map shape') (shape outcome) := by
  rcases h with rfl | ⟨trap, hkind, rfl⟩
  · exact .inl (congrArg Except.ok hshape)
  · exact .inr ⟨trap, hkind, rfl⟩

end Refines

/-! ### The bare tape -/

namespace BareTape

variable (tape : Tape)

@[simp]
theorem pointer_bare : tape.bare.pointer = tape.pointer := rfl

/-- Every cell of the tape can be looked up. -/
@[simp]
theorem load_bare (index : Fin tapeSize) :
    tape.bare.load index = .ok (tape.cells.get index) := by
  have hcell : tape.bare.cells[index.val]? = some (tape.cells.get index) :=
    Array.getElem?_eq_getElem (by simp [Tape.bare])
  simp only [load, hcell]

/-- Every cell of the tape can be given a value. -/
@[simp]
theorem store_bare (index : Fin tapeSize) (value : UInt8) :
    tape.bare.store index value = .ok (tape.modifyCell index fun _ => value).bare := by
  have hindex : index.val < tape.bare.cells.size := by simp [Tape.bare]
  rw [store, if_pos hindex]
  simp [Tape.bare, Tape.cells_modifyCell, Array.setIfInBounds, Vector.set]

/-- The current cell can be looked up. -/
@[simp]
theorem current_bare : tape.bare.current = .ok tape.current :=
  load_bare tape tape.pointer

/-- The current cell can be changed. -/
@[simp]
theorem change_bare (change : UInt8 → UInt8) :
    tape.bare.change change = .ok (tape.modifyCell tape.pointer change).bare := by
  show tape.bare.current.bind (fun value => tape.bare.store tape.pointer (change value)) = _
  rw [current_bare]
  exact store_bare tape tape.pointer (change tape.current)

/-- The cell to move to is found, or found missing, as on the tape, unless the sum overflows. -/
theorem offset_bare (delta : Int) :
    tape.bare.offset delta = .ok ((tape.offset delta).map Fin.val) ∨
      ∃ trap : Trap, trap.OfSum delta ∧ tape.bare.offset delta = .error trap := by
  -- the index of a cell is far below the limit of words, so only the sum can overflow
  have hpointer : signedWord tape.pointer = tape.pointer := by
    rw [signedWord, if_pos (by have := tape.pointer.isLt; simp only [tapeSize] at this; omega)]
  unfold offset
  rw [pointer_bare, hpointer, addWords]
  by_cases hword : IsWord (tape.pointer + delta)
  · rw [if_pos hword]
    refine .inl ?_
    simp only [Tape.offset, Tape.index?]
    -- the same comparison, made once for the failure and once for the success
    by_cases hrange : 0 ≤ tape.pointer + delta ∧ tape.pointer + delta < tapeSize
    · rw [dif_pos hrange]
      show (if _ then _ else _) = _
      rw [if_neg (by omega)]
      rfl
    · rw [dif_neg hrange]
      show (if _ then _ else _) = _
      rw [if_pos (by omega)]
      rfl
  · rw [if_neg hword]
    exact .inr ⟨_, ⟨tape.pointer, hword, rfl⟩, rfl⟩

/-- A bare move refines a move. -/
theorem refines_moveBy (delta : Int) :
    Refines (Trap.OfSum delta) Tape.bare (tape.bare.moveBy delta) (tape.moveBy delta) := by
  rcases offset_bare tape delta with hoffset | ⟨trap, hsum, htrap⟩
  · refine .inl ?_
    rw [moveBy, Tape.moveBy, hoffset]
    cases tape.offset delta with
    | ok index => rfl
    | error error => rfl
  · refine .inr ⟨trap, hsum, ?_⟩
    rw [moveBy, htrap]
    rfl

/-- A bare scan refines a scan of as many rounds. -/
theorem refines_scan_rounds (step : Int) (rounds : Nat) :
    Refines (Trap.OfSum step) Tape.bare (scan step rounds tape.bare)
      (Tape.scan step rounds tape) := by
  -- a round that moves leaves a tape again, from which the next one goes on
  induction rounds generalizing tape with
  | zero => exact .inl rfl
  | succ rounds ih =>
    rw [scan, current_bare, Tape.scan]
    show Refines _ Tape.bare (if tape.current = 0 then _ else _) _
    by_cases hzero : tape.current = 0
    · rw [if_pos hzero, if_pos hzero]
      exact .inl rfl
    · rw [if_neg hzero, if_neg hzero]
      exact (refines_moveBy tape step).goOn ih

/-- A bare scan with a round for each cell refines a scan. -/
theorem refines_scan {rounds : Nat} (hrounds : tapeSize ≤ rounds) (step : Int) :
    Refines (Trap.OfSum step) Tape.bare (scan step rounds tape.bare) (tape.scanUntilZero step) := by
  -- a scan that has not ended after a round for each cell never ends
  have heq : Tape.scan step rounds tape = tape.scanUntilZero step := by
    by_cases hend : tape.scanUntilZero step = .unfinished
    · rw [Tape.scan_eq_unfinished hend, hend]
    · exact Tape.scan_le hrounds hend
  rw [← heq]
  exact refines_scan_rounds tape step rounds

/-- A bare transfer refines a transfer. -/
theorem refines_transferAndZero (delta : Int) :
    Refines (Trap.OfSum delta) Tape.bare (tape.bare.transferAndZero delta)
      (tape.transferAndZero delta) := by
  rw [transferAndZero, current_bare, Tape.transferAndZero]
  show Refines _ Tape.bare (if tape.current = 0 then _ else _) (if tape.current = 0 then _ else _)
  by_cases hzero : tape.current = 0
  · rw [if_pos hzero, if_pos hzero]
    exact .inl rfl
  · rw [if_neg hzero, if_neg hzero]
    rcases offset_bare tape delta with hoffset | ⟨trap, hsum, htrap⟩
    · refine .inl ?_
      rw [hoffset]
      cases tape.offset delta with
      | error error => rfl
      | ok target =>
        -- adding to the target leaves a tape, on which the old cell can be set
        have hclear (added : Tape) :
            added.bare.store added.bare.pointer 0 = .ok (added.setCurrent 0).bare :=
          store_bare added added.pointer 0
        simp only [Except.map, bind, Except.bind, load_bare, store_bare, hclear]
        rfl
    · refine .inr ⟨trap, hsum, ?_⟩
      rw [htrap]
      rfl

end BareTape

/-! ### The bare machine -/

namespace BareMachine

/-- What refines on the tape refines on the machine. -/
theorem refines_onTape (machine : Machine) {kind : Trap → Prop} {action : Tape → Outcome Tape}
    {action' : BareTape → Except Trap (Outcome BareTape)}
    (h : Refines kind Tape.bare (action' machine.tape.bare) (action machine.tape)) :
    Refines kind Machine.bare (machine.bare.onTape action') (machine.onTape action) := by
  rw [Machine.onTape_eq]
  refine Refines.map (Outcome.map machine.withTape) _ h ?_
  cases action machine.tape <;> rfl

/-- A bare move of the machine refines a move. -/
theorem refines_moveBy (machine : Machine) (delta : Int) :
    Refines (Trap.OfSum delta) Machine.bare (machine.bare.onTape (·.moveBy delta))
      (machine.moveBy delta) :=
  refines_onTape machine (BareTape.refines_moveBy machine.tape delta)

/-- A bare change of the current cell refines a change. -/
theorem refines_change {kind : Trap → Prop} (machine : Machine) (change : UInt8 → UInt8) :
    Refines kind Machine.bare (machine.bare.change change)
      (.done (machine.mapTape fun tape => tape.modifyCell tape.pointer change)) := by
  refine .inl ?_
  have htape : machine.bare.tape.change change =
      .ok (machine.tape.modifyCell machine.tape.pointer change).bare :=
    BareTape.change_bare machine.tape change
  simp only [BareMachine.change, htape, bind, Except.bind]
  rfl

/-- Bare writing refines writing. -/
theorem refines_write {kind : Trap → Prop} (machine : Machine) :
    Refines kind Machine.bare machine.bare.write machine.write := by
  refine .inl ?_
  have hcurrent : machine.bare.tape.current = .ok machine.tape.current :=
    BareTape.current_bare machine.tape
  have houtput : machine.bare.output = machine.output := rfl
  simp only [write, hcurrent, houtput, bind, Except.bind, Machine.write]
  cases machine.output.write machine.tape.current <;> rfl

/-- Bare reading refines reading. -/
theorem refines_read {kind : Trap → Prop} (machine : Machine) :
    Refines kind Machine.bare machine.bare.read machine.read := by
  refine .inl ?_
  have hstore (byte : UInt8) : machine.bare.tape.store machine.bare.tape.pointer byte =
      .ok (machine.tape.setCurrent byte).bare :=
    BareTape.store_bare machine.tape machine.tape.pointer byte
  have hinput : machine.bare.input = machine.input := rfl
  simp only [read, hstore, hinput, bind, Except.bind, Machine.read]
  rcases machine.input.read with ⟨(error | value), input⟩
  · rfl
  · cases value with
    | none => rfl
    | some byte => rfl

/-- What refines once refines when it is repeated. -/
theorem refines_iterate {kind : Trap → Prop} {action : Machine → Outcome Machine}
    {action' : BareMachine → Except Trap (Outcome BareMachine)}
    (h : ∀ machine, Refines kind Machine.bare (action' machine.bare) (action machine))
    (count : Nat) (machine : Machine) :
    Refines kind Machine.bare (iterate action' count machine.bare)
      (Outcome.iterate action count machine) := by
  induction count generalizing machine with
  | zero => exact .inl rfl
  | succ count ih =>
    rw [iterate, Outcome.iterate_succ]
    exact (h machine).goOn ih

end BareMachine

/-- What an op does to a bare machine refines what it does, if scans get a round for each cell. -/
theorem Op.refines_act {rounds : Nat} (hrounds : tapeSize ≤ rounds) (op : Op) (machine : Machine) :
    Refines op.Overflows Machine.bare (op.actBare rounds machine.bare) (op.act machine) := by
  cases op with
  | forward count => exact BareMachine.refines_moveBy machine (signedWord count)
  | backward count =>
    -- the opposite is formed before the sum, and may overflow by itself
    rw [actBare, oppositeWord]
    by_cases hword : IsWord (-signedWord count)
    · rw [if_pos hword]
      exact (BareMachine.refines_moveBy machine (-signedWord count)).mono fun _ => .inl
    · rw [if_neg hword]
      exact .inr ⟨_, .inr ⟨hword, rfl⟩, rfl⟩
  | add count => exact BareMachine.refines_change machine _
  | sub count => exact BareMachine.refines_change machine _
  | write count => exact BareMachine.refines_iterate BareMachine.refines_write count machine
  | read count => exact BareMachine.refines_iterate BareMachine.refines_read count machine
  | setZero =>
    refine .inl ?_
    have hstore : machine.bare.tape.store machine.bare.tape.pointer 0 =
        .ok (machine.tape.setCurrent 0).bare :=
      BareTape.store_bare machine.tape machine.tape.pointer 0
    simp only [actBare, hstore, bind, Except.bind]
    rfl
  | scanUntilZero step =>
    exact BareMachine.refines_onTape machine (BareTape.refines_scan machine.tape hrounds step)
  | transferAndZero delta =>
    rw [actBare, act]
    apply BareMachine.refines_onTape
    exact BareTape.refines_transferAndZero machine.tape delta
  | jumpIfZero target => exact .inl rfl
  | jumpIfNotZero target => exact .inl rfl

namespace BareConfig

/-- A jump of a bare machine is that of the machine. -/
theorem jump_bare (size target : Nat) (config : Config) :
    config.bare.jump size target = (Bytecode.jump size target config).map Config.bare := by
  unfold jump Bytecode.jump
  split <;> rfl

/-- A step of a bare machine refines that of the machine. -/
theorem refines_step {rounds : Nat} (hrounds : tapeSize ≤ rounds) (size : Nat) (op : Op)
    (config : Config) :
    Refines op.Overflows Config.bare (config.bare.step rounds size op)
      (Bytecode.step size op config) := by
  have hcurrent : config.bare.machine.tape.current = .ok config.machine.tape.current :=
    BareTape.current_bare config.machine.tape
  -- an op that is no jump acts on the machine, and the position goes on or stays
  have hact : Refines op.Overflows Config.bare
      ((op.actBare rounds config.machine.bare).map config.bare.settle) (config.act op.act) := by
    refine Refines.map (fun outcome => config.act fun _ => outcome) _
      (op.refines_act hrounds config.machine) ?_
    cases op.act config.machine <;> rfl
  cases op with
  | jumpIfZero target =>
    refine .inl ?_
    simp only [step, hcurrent, bind, Except.bind, Bytecode.step, Config.atZero]
    by_cases hzero : config.machine.tape.current = 0
    · simp [hzero, jump_bare, pure, Except.pure]
    · simp [hzero]
      rfl
  | jumpIfNotZero target =>
    refine .inl ?_
    simp only [step, hcurrent, bind, Except.bind, Bytecode.step, Config.atZero]
    by_cases hzero : config.machine.tape.current = 0
    · simp [hzero]
      rfl
    · simp [hzero, jump_bare, pure, Except.pure]
  | _ => exact hact

/-- A run of a bare machine refines that of the machine. -/
theorem refines_run {rounds : Nat} (hrounds : tapeSize ≤ rounds) (ops : Array Op) (fuel : Nat)
    (config : Config) :
    Refines (fun trap => ∃ op ∈ ops.toList, op.Overflows trap) Config.bare
      (run rounds ops fuel config.bare) (Bytecode.runFrom ops fuel config) := by
  unfold Bytecode.runFrom
  induction fuel generalizing config with
  | zero => exact .inl rfl
  | succ fuel ih =>
    rw [run, walk_succ]
    show Refines _ Config.bare (match ops[config.position]? with | none => _ | some op => _) _
    cases hop : ops[config.position]? with
    | none => exact .inl rfl
    | some op =>
      have hmem : op ∈ ops.toList := Array.mem_toList_iff.mpr (Array.mem_of_getElem? hop)
      exact ((refines_step hrounds ops.size op config).mono fun _ h => ⟨op, hmem, h⟩).goOn ih

end BareConfig

end TapeLang

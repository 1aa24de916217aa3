import TapeLang.Proofs.Idioms
import TapeLang.Proofs.Native.Frame
import TapeLang.Proofs.Native.Lowered
import TapeLang.Proofs.Native.Steps
import TapeLang.Proofs.Native.Structured

/-!
# Lowered functions and structured execution

The function for a block, executed on a machine, does what the structured execution of the block
does. `Ir.Frame` is the place in which its code runs, and `Ir.Stands` says that a state stands at a
line of the code and holds a machine.

* `Ir.comes_op`: the lines of an op.
* `Ir.implements_lowered`: the lines of a block implement it, by recursion over the block.
-/

namespace TapeLang

/-- The count of an op that reads or writes is a number of sixty-four bits. -/
def Op.Sized : Op → Prop
  | .write count | .read count => count < 0x10000000000000000
  | _ => True

namespace Ir

/-- Where the code of a function runs. -/
structure Frame where
  /-- The function. -/
  function : Function
  /-- The address of the tape. -/
  base : BitVec 64
  /-- The line at which the function begins to return. -/
  exit : Nat
  /-- No two blocks have the same label. -/
  distinct : function.Distinct
  /-- The function returns what it is left with. -/
  returns : function.Laid exit [.block Lower.exit [Lower.result], .ret Lower.result]

/-- The steps of a function. -/
def Frame.steps (frame : Frame) : Steps State where
  Leads count state next := frame.function.after count state = some next
  refl _ := rfl
  trans h h' := by rw [Function.after_add, h]; exact h'

/-- The state stands at a line with an index in the variable. The tape, the input and the output are
those of a machine. -/
structure Stands (frame : Frame) (line : Nat) (index : BitVec 64) (machine : Machine)
    (state : State) : Prop where
  line : state.line = line
  index : state.index = some index
  tape : state.values Lower.tape = some (.word frame.base)
  base : state.base = frame.base
  cells : state.cells = machine.tape.cells
  input : state.input = machine.input
  output : state.output = machine.output

/-- The state stands at a line with the index of the current cell in the variable. -/
def OnCell (frame : Frame) (line : Nat) (machine : Machine) (state : State) : Prop :=
  Stands frame line (BitVec.ofNat 64 machine.tape.pointer) machine state

/-- The state is about to return a word. -/
structure Delivers (frame : Frame) (word : BitVec 64) (machine : Machine) (state : State) :
    Prop where
  line : state.line = frame.exit + 1
  result : state.values Lower.result = some (.word word)
  cells : state.cells = machine.tape.cells
  input : state.input = machine.input
  output : state.output = machine.output

/-- The state is about to return an index that is not on the tape. -/
def Leaves (frame : Frame) (index : Int) (machine : Machine) (state : State) : Prop :=
  Delivers frame (BitVec.ofInt 64 index) machine state

/-- The values before a number are known to be the same. -/
def Keeps (value : Nat) (state next : State) : Prop :=
  ∀ other : Value, other.index < value → next.values other = state.values other

variable {frame : Frame} {line value label : Nat} {index word : BitVec 64} {machine : Machine}
  {state next : State} {rest : List Line}

/-- What is kept in some steps and in those after them is kept in all. -/
theorem Keeps.trans {more : Nat} {mid : State} (h : Keeps value state mid)
    (hnext : Keeps more mid next) (hle : value ≤ more) : Keeps value state next :=
  fun other hother => (hnext other (Nat.lt_of_lt_of_le hother hle)).trans (h other hother)

/-- The variable is read. -/
theorem Stands.evaluate_index (h : Stands frame line index machine state) :
    state.evaluate .index = some (.word index) := by
  rw [State.evaluate, h.index, Option.map_some]

/-- The address of a cell. -/
theorem cellAt?_add (hbase : state.base = frame.base) (position : Fin tapeSize) :
    state.cellAt? (frame.base + BitVec.ofNat 64 position) = some position := by
  have hposition := position.isLt
  have hoffset : (frame.base + BitVec.ofNat 64 position - state.base).toNat = position := by
    rw [hbase, BitVec.add_comm, BitVec.add_sub_cancel, BitVec.toNat_ofNat]
    simp only [tapeSize] at hposition
    omega
  simp only [State.cellAt?, hoffset, dif_pos hposition, Fin.eta]

/-- A step leads to the next state. -/
theorem leads_of_step (h : frame.function.step state = .next next) :
    frame.steps.Leads 1 state next := by
  show frame.function.after 1 state = _
  rw [Function.after, h]
  rfl

/-- A line that the next one follows is executed. -/
theorem leads_execute {first : Line} {changed : State} (hline : state.line = line)
    (hlaid : frame.function.Laid line (first :: rest))
    (heffect : state.effect first = some changed) :
    frame.steps.Leads 1 state { changed with line := state.line + 1 } := by
  have hfirst : frame.function.lines.toList[state.line]? = some first := hline ▸ hlaid.getElem?_eq
  have hexecute : state.execute first = some { changed with line := state.line + 1 } := by
    rw [State.execute, heffect, Option.map_some]
  exact leads_of_step (Function.step_of_execute hfirst hexecute)

/-- A value is defined. -/
theorem leads_define {operation : Operation} {datum : Datum}
    (h : Stands frame line index machine state)
    (hlaid : frame.function.Laid line (.define ⟨value⟩ operation :: rest)) (hvalue : 0 < value)
    (hdatum : state.evaluate operation = some datum) :
    ∃ next, frame.steps.Leads 1 state next ∧ Stands frame (line + 1) index machine next ∧
      next.values ⟨value⟩ = some datum ∧ Keeps value state next := by
  have heffect : state.effect (.define ⟨value⟩ operation) = some (state.define ⟨value⟩ datum) := by
    rw [State.effect, hdatum, Option.map_some]
  -- the address of the tape is value zero, and is not defined again
  have htape : Lower.tape ≠ ⟨value⟩ := fun heq => Nat.ne_of_lt hvalue (congrArg Value.index heq)
  refine ⟨_, leads_execute h.line hlaid heffect, ?_, Function.update_self ..,
    fun other hother => ?_⟩
  · exact { h with
      line := congrArg (· + 1) h.line
      tape := (Function.update_of_ne htape _ _).trans h.tape }
  · refine Function.update_of_ne (fun heq => ?_) _ _
    rw [heq] at hother
    exact Nat.lt_irrefl value hother

/-- The address of the current cell is found. -/
theorem leads_address (h : OnCell frame line machine state)
    (hlaid : frame.function.Laid line (.define ⟨value⟩ .index ::
      .define ⟨value + 1⟩ (.add Lower.tape ⟨value⟩) :: rest)) (hvalue : 0 < value) :
    ∃ next, frame.steps.Leads 2 state next ∧ OnCell frame (line + 2) machine next ∧
      next.values ⟨value + 1⟩ =
        some (.word (frame.base + BitVec.ofNat 64 machine.tape.pointer)) ∧
      Keeps value state next := by
  obtain ⟨found, hleads, hfound, hindex, hkeeps⟩ :=
    leads_define h hlaid hvalue h.evaluate_index
  have hsum : found.evaluate (.add Lower.tape ⟨value⟩) =
      some (.word (frame.base + BitVec.ofNat 64 machine.tape.pointer)) := by
    rw [State.evaluate, hfound.tape, hindex]
  obtain ⟨next, hleads', hnext, haddress, hkeeps'⟩ :=
    leads_define hfound hlaid.tail (Nat.succ_pos value) hsum
  exact ⟨next, frame.steps.trans hleads hleads', hnext, haddress,
    hkeeps.trans hkeeps' (Nat.le_succ value)⟩

/-- The current cell is taken. -/
theorem leads_load (h : OnCell frame line machine state)
    (hlaid : frame.function.Laid line (loadLines value)) (hvalue : 0 < value) :
    ∃ next, frame.steps.Leads 3 state next ∧ OnCell frame (line + 3) machine next ∧
      next.values ⟨value + 2⟩ = some (.byte machine.tape.current) ∧ Keeps value state next := by
  obtain ⟨found, hleads, hfound, haddress, hkeeps⟩ := leads_address h hlaid hvalue
  have hload : found.evaluate (.load ⟨value + 1⟩) = some (.byte machine.tape.current) := by
    rw [State.evaluate, haddress]
    simp only [cellAt?_add hfound.base, Option.map_some, hfound.cells]
    rfl
  obtain ⟨next, hleads', hnext, hbyte, hkeeps'⟩ :=
    leads_define hfound hlaid.tail.tail (Nat.succ_pos _) hload
  exact ⟨next, frame.steps.trans hleads hleads', hnext, hbyte,
    hkeeps.trans hkeeps' (Nat.le_add_right value 2)⟩

/-- A byte is put into a cell. -/
theorem leads_store {byte address : Value} {number : UInt8} {position : Fin tapeSize}
    (h : Stands frame line index machine state)
    (hlaid : frame.function.Laid line (.store byte address :: rest))
    (hbyte : state.values byte = some (.byte number))
    (haddress : state.values address = some (.word (frame.base + BitVec.ofNat 64 position))) :
    ∃ next, frame.steps.Leads 1 state next ∧
      Stands frame (line + 1) index
        (machine.withTape (machine.tape.modifyCell position fun _ => number)) next := by
  have heffect : state.effect (.store byte address) = some (state.setCell position number) := by
    simp only [State.effect, hbyte, haddress, cellAt?_add h.base, Option.map_some]
  refine ⟨_, leads_execute h.line hlaid heffect, ?_⟩
  exact { h with
    line := congrArg (· + 1) h.line
    cells := congrArg (·.set position number) h.cells }

/-- A byte is put into the current cell. -/
theorem leads_storeCell {byte : Value} {number : UInt8} (h : OnCell frame line machine state)
    (hlaid : frame.function.Laid line (storeLines byte value)) (hvalue : 0 < value)
    (hbyte : state.values byte = some (.byte number)) (hbefore : byte.index < value) :
    ∃ next, frame.steps.Leads 3 state next ∧
      OnCell frame (line + 3) (machine.mapTape (·.setCurrent number)) next := by
  obtain ⟨found, hleads, hfound, haddress, hkeeps⟩ := leads_address h hlaid hvalue
  obtain ⟨next, hleads', hnext⟩ := leads_store hfound hlaid.tail.tail
    ((hkeeps byte hbefore).trans hbyte) haddress
  exact ⟨next, frame.steps.trans hleads hleads', hnext⟩

/-- A block without parameters is entered. -/
theorem enter_block {target : Nat} {label : Label}
    (h : frame.function.Laid target (.block label [] :: rest)) (state : State) :
    frame.function.enter state label [] = .next { state with line := target + 1 } := by
  rw [Function.enter, Function.find_eq_some frame.distinct h]
  rfl

/-- The block that returns is entered with an index. -/
theorem enter_exit {result : Value} (h : Stands frame line index machine state)
    (hresult : state.values result = some (.word word)) :
    ∃ next, frame.function.enter state Lower.exit [result] = .next next ∧
      Delivers frame word machine next := by
  let entered := { state with line := frame.exit + 1 }.define Lower.result (.word word)
  have henter : frame.function.enter state Lower.exit [result] = .next entered := by
    rw [Function.enter, Function.find_eq_some frame.distinct frame.returns]
    simp only [List.mapM_cons, hresult]
    rfl
  have hdelivered : entered.values Lower.result = some (.word word) := by
    show Function.update state.values Lower.result (some (.word word)) Lower.result = _
    exact Function.update_self ..
  exact ⟨entered, henter, rfl, hdelivered, h.cells, h.input, h.output⟩

/-- A jump goes on in its block. -/
theorem leads_jump {target : Nat} {label : Label} {more : List Line}
    (h : Stands frame line index machine state)
    (hlaid : frame.function.Laid line (.jump label [] :: rest))
    (htarget : frame.function.Laid target (.block label [] :: more)) :
    ∃ next, frame.steps.Leads 1 state next ∧ Stands frame (target + 1) index machine next := by
  have hline : frame.function.lines.toList[state.line]? = some (.jump label []) :=
    h.line ▸ hlaid.getElem?_eq
  have hstep : frame.function.step state = .next { state with line := target + 1 } := by
    rw [Function.step, hline]
    exact enter_block htarget state
  exact ⟨_, leads_of_step hstep, { h with line := rfl }⟩

/-- The end of a function goes to the exit with the index of the current cell. -/
theorem leads_finish (h : OnCell frame line machine state)
    (hlaid : frame.function.Laid line (finishLines value)) (hvalue : 0 < value) :
    ∃ next, frame.steps.Leads 2 state next ∧
      Delivers frame (BitVec.ofNat 64 machine.tape.pointer) machine next := by
  obtain ⟨found, hleads, hfound, hindex, -⟩ := leads_define h hlaid hvalue h.evaluate_index
  obtain ⟨next, henter, hnext⟩ := enter_exit hfound hindex
  have hline : frame.function.lines.toList[found.line]? = some (.jump Lower.exit [⟨value⟩]) :=
    hfound.line ▸ hlaid.tail.getElem?_eq
  have hstep : frame.function.step found = .next next := by
    rw [Function.step, hline]
    exact henter
  exact ⟨next, frame.steps.trans hleads (leads_of_step hstep), hnext⟩

/-- The current cell is tested. -/
theorem leads_test {loop behind after : Label} {inside outside : Nat} {more others : List Line}
    (h : OnCell frame line machine state)
    (hlaid : frame.function.Laid line (testLines value loop behind after)) (hvalue : 0 < value)
    (hloop : frame.function.Laid inside (.block loop [] :: more))
    (hbehind : frame.function.Laid outside (.block behind [] :: others)) :
    ∃ next, frame.steps.Leads 4 state next ∧
      next.values ⟨value + 2⟩ = some (.byte machine.tape.current) ∧
      if machine.tape.current = 0 then OnCell frame (outside + 1) machine next
      else OnCell frame (inside + 1) machine next := by
  obtain ⟨hload, hbranch⟩ := Function.laid_append.mp hlaid
  obtain ⟨loaded, hleads, hloaded, hbyte, -⟩ := leads_load h hload hvalue
  have hline : frame.function.lines.toList[loaded.line]? =
      some (.branch ⟨value + 2⟩ loop [] behind []) := hloaded.line ▸ hbranch.getElem?_eq
  -- the branch enters one of the two blocks at its first instruction
  have hstep : frame.function.step loaded = .next { loaded with
      line := if machine.tape.current = 0 then outside + 1 else inside + 1 } := by
    rw [Function.step, hline]
    simp only [hbyte]
    by_cases hzero : machine.tape.current = 0
    · rw [if_pos hzero, if_pos hzero, enter_block hbehind]
    · rw [if_neg hzero, if_neg hzero, enter_block hloop]
  refine ⟨_, frame.steps.trans hleads (leads_of_step hstep), hbyte, ?_⟩
  by_cases hzero : machine.tape.current = 0
  · rw [if_pos hzero]
    exact { hloaded with line := if_pos hzero }
  · rw [if_neg hzero]
    exact { hloaded with line := if_neg hzero }

/-- The check of an index goes on behind itself if the index is on the tape, and to the exit
otherwise. -/
theorem leads_check {value' : Value} {position : Int} (h : Stands frame line index machine state)
    (hlaid : frame.function.Laid line (checkLines value' value label)) (hvalue : 0 < value)
    (hposition : state.values value' = some (.word (BitVec.ofInt 64 position)))
    (hbefore : value'.index < value) (hsmall : position.natAbs < 0x100000000) :
    if 0 ≤ position ∧ position < tapeSize then
      ∃ next, frame.steps.Leads 2 state next ∧ Stands frame (line + 3) index machine next ∧
        Keeps value state next
    else ∃ next, frame.steps.Leads 2 state next ∧
      Delivers frame (BitVec.ofInt 64 position) machine next := by
  -- seen as unsigned, an index left of the tape is above its end
  have hcompare : state.evaluate (.aboveEq value' tapeSize) =
      some (.byte (if 0 ≤ position ∧ position < tapeSize then 0 else 1)) := by
    simp only [State.evaluate, hposition]
    rw [← BitVec.ofInt_natCast, X86.ult_tapeSize hsmall]
    simp only [decide_eq_true_eq]
  obtain ⟨compared, hleads, hcompared, hbyte, hkeeps⟩ := leads_define h hlaid hvalue hcompare
  have hline : frame.function.lines.toList[compared.line]? =
      some (.branch ⟨value⟩ Lower.exit [value'] ⟨label⟩ []) :=
    hcompared.line ▸ hlaid.tail.getElem?_eq
  have hstep : frame.function.step compared =
      if 0 ≤ position ∧ position < tapeSize then frame.function.enter compared ⟨label⟩ []
      else frame.function.enter compared Lower.exit [value'] := by
    rw [Function.step, hline]
    simp only [hbyte]
    by_cases hrange : 0 ≤ position ∧ position < tapeSize
    · rw [if_pos hrange, if_pos hrange, if_pos rfl]
    · rw [if_neg hrange, if_neg hrange, if_neg (by decide)]
  by_cases hrange : 0 ≤ position ∧ position < tapeSize
  · rw [if_pos hrange, enter_block hlaid.tail.tail] at hstep
    rw [if_pos hrange]
    exact ⟨_, frame.steps.trans hleads (leads_of_step hstep), { hcompared with line := rfl },
      hkeeps⟩
  · obtain ⟨next, henter, hnext⟩ := enter_exit hcompared ((hkeeps _ hbefore).trans hposition)
    rw [if_neg hrange, henter] at hstep
    rw [if_neg hrange]
    exact ⟨next, frame.steps.trans hleads (leads_of_step hstep), hnext⟩

/-- The index of another cell is found. -/
theorem leads_shift {delta : Int} (h : OnCell frame line machine state)
    (hlaid : frame.function.Laid line (.define ⟨value⟩ .index ::
      .define ⟨value + 1⟩ (.addConst ⟨value⟩ delta) :: rest)) (hvalue : 0 < value) :
    ∃ next, frame.steps.Leads 2 state next ∧ OnCell frame (line + 2) machine next ∧
      next.values ⟨value + 1⟩ =
        some (.word (BitVec.ofInt 64 (machine.tape.pointer + delta))) ∧
      Keeps value state next := by
  obtain ⟨found, hleads, hfound, hindex, hkeeps⟩ :=
    leads_define h hlaid hvalue h.evaluate_index
  have hsum : found.evaluate (.addConst ⟨value⟩ delta) =
      some (.word (BitVec.ofInt 64 (machine.tape.pointer + delta))) := by
    simp only [State.evaluate, hindex, BitVec.ofInt_add, BitVec.ofInt_natCast]
  obtain ⟨next, hleads', hnext, hshifted, hkeeps'⟩ :=
    leads_define hfound hlaid.tail (Nat.succ_pos value) hsum
  exact ⟨next, frame.steps.trans hleads hleads', hnext, hshifted,
    hkeeps.trans hkeeps' (Nat.le_succ value)⟩

/-- The variable is changed. -/
theorem leads_setIndex {value : Value} (h : Stands frame line index machine state)
    (hlaid : frame.function.Laid line (.setIndex value :: rest))
    (hvalue : state.values value = some (.word word)) :
    ∃ next, frame.steps.Leads 1 state next ∧ Stands frame (line + 1) word machine next ∧
      next.values = state.values := by
  have heffect : state.effect (.setIndex value) = some { state with index := some word } := by
    rw [State.effect, hvalue]
  exact ⟨_, leads_execute h.line hlaid heffect,
    { h with line := congrArg (· + 1) h.line, index := rfl }, rfl⟩

/-- The lines of a move of the pointer. -/
theorem comes_move {delta : Int} (h : OnCell frame line machine state)
    (hlaid : frame.function.Laid line (moveLines delta value label)) (hvalue : 0 < value)
    (hsmall : delta.natAbs ≤ 0x80000000) (slack : Nat) :
    frame.steps.Comes (OnCell frame (line + 6)) (Leaves frame) slack state
      (machine.moveBy delta) := by
  obtain ⟨hshift, hcheck⟩ := Function.laid_append.mp hlaid
  obtain ⟨shifted, hleads, hshifted, hindex, -⟩ := leads_shift h hshift hvalue
  obtain ⟨moved, hleads', hmoved, hkept⟩ := leads_setIndex hshifted hshift.tail.tail hindex
  have hpointer := machine.tape.pointer.isLt
  have hchecked := leads_check hmoved hcheck (Nat.succ_pos _) ((congrFun hkept _).trans hindex)
    (Nat.lt_succ_self _) (by simp only [tapeSize] at hpointer; omega)
  refine Steps.comes_moveBy hsmall slack (fun tape hmove => ?_) fun hrange => ?_
  · obtain ⟨hcells, htarget⟩ := Tape.moveBy_eq_done_iff.mp hmove
    have hlt := tape.pointer.isLt
    rw [if_pos ⟨by omega, by omega⟩, ← htarget, BitVec.ofInt_natCast] at hchecked
    obtain ⟨next, hleads'', hnext, -⟩ := hchecked
    exact ⟨_, next, frame.steps.trans hleads (frame.steps.trans hleads' hleads''),
      { hnext with cells := hnext.cells.trans hcells.symm }⟩
  · rw [if_neg hrange] at hchecked
    obtain ⟨next, hleads'', hnext⟩ := hchecked
    exact ⟨_, next, frame.steps.trans hleads (frame.steps.trans hleads' hleads''), hnext⟩

/-- The lines of a scan. -/
theorem comes_scan {step : Int} (h : OnCell frame line machine state)
    (hlaid : frame.function.Laid line (scanLines step value label)) (hvalue : 0 < value)
    (hsmall : step.natAbs ≤ 0x80000000) (slack : Nat) :
    frame.steps.Comes (OnCell frame (line + 15)) (Leaves frame) slack state
      (machine.onTape (·.scanUntilZero step)) := by
  -- the scan stands at its test in line + 2, at its move in line + 7 and at the way back in
  -- line + 13; line + 15 is behind it
  obtain ⟨hrest, hback⟩ := Function.laid_append.mp hlaid
  obtain ⟨hrest, hmove⟩ := Function.laid_append.mp hrest
  obtain ⟨henter, htest⟩ := Function.laid_append.mp hrest
  have hinside := (Function.laid_append.mp htest).2.tail
  have htested : ∀ machine state, OnCell frame (line + 2) machine state →
      ∃ count next, 0 < count ∧ frame.steps.Leads count state next ∧
        if machine.tape.current = 0 then OnCell frame (line + 15) machine next
        else OnCell frame (line + 7) machine next := by
    intro machine state h
    obtain ⟨next, hleads, -, hnext⟩ := leads_test h htest hvalue hinside hback.tail
    exact ⟨4, next, by omega, hleads, hnext⟩
  have hmoved : ∀ machine state slack, OnCell frame (line + 7) machine state →
      frame.steps.Comes (OnCell frame (line + 13)) (Leaves frame) slack state
        (machine.moveBy step) :=
    fun machine state slack h => comes_move h hmove (Nat.succ_pos _) hsmall slack
  have hjumped : ∀ machine state, OnCell frame (line + 13) machine state →
      ∃ count next, frame.steps.Leads count state next ∧ OnCell frame (line + 2) machine next :=
    fun machine state h => ⟨1, leads_jump h hback henter.tail⟩
  obtain ⟨begun, hleads, hbegun⟩ := leads_jump h henter henter.tail
  have hcomes := Steps.comes_scanUntilZero htested hmoved hjumped hbegun slack
  exact (Steps.comes_of_leads hleads hcomes).mono (Nat.le_add_right _ _)

/-- A byte is added to a cell. -/
theorem leads_addTo {byte target : Value} {number : UInt8} {position : Fin tapeSize}
    (h : OnCell frame line machine state)
    (hlaid : frame.function.Laid line (addToLines byte target value)) (hvalue : 0 < value)
    (hbyte : state.values byte = some (.byte number)) (hbefore : byte.index < value)
    (htarget : state.values target = some (.word (BitVec.ofNat 64 position))) :
    ∃ next, frame.steps.Leads 4 state next ∧ OnCell frame (line + 4)
      (machine.withTape (machine.tape.modifyCell position (· + number))) next := by
  have hsum : state.evaluate (.add Lower.tape target) =
      some (.word (frame.base + BitVec.ofNat 64 position)) := by
    rw [State.evaluate, h.tape, htarget]
  obtain ⟨found, leadsFound, hfound, haddress, keepsFound⟩ := leads_define h hlaid hvalue hsum
  have hload : found.evaluate (.load ⟨value⟩) =
      some (.byte (machine.tape.cells.get position)) := by
    rw [State.evaluate, haddress]
    simp only [cellAt?_add hfound.base, Option.map_some, hfound.cells]
  obtain ⟨loaded, leadsLoaded, hloaded, hold, keepsLoaded⟩ :=
    leads_define hfound hlaid.tail (Nat.succ_pos value) hload
  have hadd : loaded.evaluate (.add ⟨value + 1⟩ byte) =
      some (.byte (machine.tape.cells.get position + number)) := by
    rw [State.evaluate, hold, keepsLoaded byte (Nat.lt_succ_of_lt hbefore),
      keepsFound byte hbefore, hbyte]
  obtain ⟨added, leadsAdded, hadded, hnew, keepsAdded⟩ :=
    leads_define hloaded hlaid.tail.tail (Nat.succ_pos _) hadd
  -- the address is still known after two more values have been defined
  have hkept : added.values ⟨value⟩ = found.values ⟨value⟩ := by
    rw [keepsAdded ⟨value⟩ (by simp only; omega), keepsLoaded ⟨value⟩ (Nat.lt_succ_self value)]
  obtain ⟨next, leadsNext, hnext⟩ :=
    leads_store hadded hlaid.tail.tail.tail hnew (hkept.trans haddress)
  exact ⟨next, frame.steps.trans leadsFound (frame.steps.trans leadsLoaded
    (frame.steps.trans leadsAdded leadsNext)), hnext⟩

/-- The current cell is set to zero. -/
theorem leads_clear (h : OnCell frame line machine state)
    (hlaid : frame.function.Laid line (clearLines value)) (hvalue : 0 < value) :
    ∃ next, frame.steps.Leads 4 state next ∧
      OnCell frame (line + 4) (machine.mapTape (·.setCurrent 0)) next := by
  obtain ⟨found, hleads, hfound, hzero, -⟩ := leads_define h hlaid hvalue
    (show state.evaluate (.const .i8 _) = some (.byte 0) from rfl)
  obtain ⟨next, hleads', hnext⟩ :=
    leads_storeCell hfound hlaid.tail (Nat.succ_pos value) hzero (Nat.lt_succ_self value)
  exact ⟨next, frame.steps.trans hleads hleads', hnext⟩

/-- The lines of a transfer. -/
theorem comes_transfer {delta : Int} (h : OnCell frame line machine state)
    (hlaid : frame.function.Laid line (transferLines delta value label)) (hvalue : 0 < value)
    (hsmall : delta.natAbs ≤ 0x80000000) (slack : Nat) :
    frame.steps.Comes (OnCell frame (line + 20)) (Leaves frame) slack state
      (machine.onTape (·.transferAndZero delta)) := by
  obtain ⟨hrest, hend⟩ := Function.laid_append.mp hlaid
  obtain ⟨hrest, hclear⟩ := Function.laid_append.mp hrest
  obtain ⟨hrest, hadd⟩ := Function.laid_append.mp hrest
  obtain ⟨htest, htarget⟩ := Function.laid_append.mp hrest
  obtain ⟨hshift, hcheck⟩ := Function.laid_append.mp htarget
  have hinside := (Function.laid_append.mp htest).2.tail
  obtain ⟨tested, leadsTested, hbyte, htested⟩ := leads_test h htest hvalue hinside hend.tail
  rw [Machine.onTape_eq, Tape.transferAndZero]
  by_cases hzero : machine.tape.current = 0
  · -- there is nothing to move, and the target is not even looked for
    rw [if_pos hzero] at htested ⊢
    exact ⟨4, tested, leadsTested, htested⟩
  · rw [if_neg hzero] at htested ⊢
    obtain ⟨shifted, leadsShifted, hshifted, hindex, keepsShifted⟩ :=
      leads_shift htested hshift (Nat.succ_pos _)
    have hpointer := machine.tape.pointer.isLt
    have hchecked := leads_check hshifted hcheck (Nat.succ_pos _) hindex (Nat.lt_succ_self _)
      (by simp only [tapeSize] at hpointer; omega)
    have hfront := frame.steps.trans leadsTested leadsShifted
    cases hoffset : machine.tape.offset delta with
    | ok target =>
      have htarget : (machine.tape.pointer : Int) + delta = target :=
        Tape.index?_eq_ok_iff.mp hoffset
      have hlt := target.isLt
      rw [htarget, if_pos ⟨by omega, by omega⟩] at hchecked
      rw [htarget, BitVec.ofInt_natCast] at hindex
      obtain ⟨checked, leadsChecked, hchecked, keepsChecked⟩ := hchecked
      have hbyte : checked.values ⟨value + 2⟩ = some (.byte machine.tape.current) := by
        rw [keepsChecked ⟨value + 2⟩ (by simp only; omega),
          keepsShifted ⟨value + 2⟩ (Nat.lt_succ_self _), hbyte]
      have hindex : checked.values ⟨value + 4⟩ = some (.word (BitVec.ofNat 64 target)) := by
        rw [keepsChecked ⟨value + 4⟩ (Nat.lt_succ_self _), hindex]
      obtain ⟨added, leadsAdded, hadded⟩ := leads_addTo hchecked hadd (Nat.succ_pos _) hbyte
        (by simp only; omega) hindex
      obtain ⟨cleared, leadsCleared, hcleared⟩ := leads_clear hadded hclear (Nat.succ_pos _)
      obtain ⟨next, leadsNext, hnext⟩ := leads_jump hcleared hend hend.tail
      exact ⟨_, next, frame.steps.trans hfront (frame.steps.trans leadsChecked
        (frame.steps.trans leadsAdded (frame.steps.trans leadsCleared leadsNext))), hnext⟩
    | error error =>
      -- the code leaves before it has changed a cell
      obtain ⟨rfl, hrange⟩ := Tape.of_offset_eq_error hoffset
      rw [if_neg hrange] at hchecked
      obtain ⟨next, leadsNext, hnext⟩ := hchecked
      simp only [tapeSize] at hpointer
      exact ⟨_, rfl, hrange, by omega, _, next, frame.steps.trans hfront leadsNext, hnext⟩

/-- A descriptor is passed on as it is. -/
theorem toInt_ofInt {descriptor : Int} (hlow : -0x80000000 ≤ descriptor)
    (hhigh : descriptor < 0x80000000) : (BitVec.ofInt 32 descriptor).toInt = descriptor :=
  BitVec.toInt_ofInt_eq_self (by decide) (by omega) (by omega)

/-- A byte is passed on as it is. -/
theorem ofInt_toNat (byte : UInt8) : UInt8.ofInt byte.toNat = byte := by
  refine UInt8.toNat_inj.mp ?_
  have hbyte := byte.toNat_lt
  rw [UInt8.ofInt, UInt8.toNat_ofNat']
  omega

/-- A count is passed on as it is. -/
theorem toNat_ofInt_signedWord {count : Nat} (h : count < 0x10000000000000000) :
    (BitVec.ofInt 64 (signedWord count)).toNat = count := by
  rw [X86.ofInt_signedWord, BitVec.ofInt_natCast, BitVec.toNat_ofNat, Nat.mod_eq_of_lt h]

/-- A helper does not move the pointer. -/
theorem pointer_iterate_act (helper : Helper) (descriptor : Int) (count : Nat)
    (machine : Machine) :
    ((helper.act descriptor)^[count] machine).tape.pointer = machine.tape.pointer := by
  have hact : ∀ machine : Machine,
      (helper.act descriptor machine).tape.pointer = machine.tape.pointer := by
    rintro ⟨tape, input, output⟩
    cases helper with
    | writeCell =>
      rw [Helper.act, Machine.writeTo]
      split
      · dsimp only
        split <;> rfl
      · rfl
    | readCell =>
      rw [Helper.act, Machine.readFrom]
      split
      · dsimp only
        split <;> rfl
      · rfl
  induction count generalizing machine with
  | zero => rfl
  | succ count ih => rw [Function.iterate_succ_apply, ih, hact]

/-- A helper is called on the current cell. -/
theorem leads_call {helper : Helper} {descriptor : Int} {count : Nat}
    (hlow : -0x80000000 ≤ descriptor) (hhigh : descriptor < 0x80000000)
    (hcount : count < 0x10000000000000000) (h : OnCell frame line machine state)
    (hlaid : frame.function.Laid line (callLines helper descriptor count value))
    (hvalue : 0 < value) :
    ∃ next, frame.steps.Leads 6 state next ∧
      OnCell frame (line + 6) ((helper.act descriptor)^[count] machine) next := by
  obtain ⟨first, leadsFirst, hfirst, hdescriptor, -⟩ := leads_define h hlaid hvalue
    (show state.evaluate (.const .i32 descriptor) = some (.half (BitVec.ofInt 32 descriptor))
      from rfl)
  obtain ⟨second, leadsSecond, hsecond, haddress, keepsSecond⟩ :=
    leads_address hfirst hlaid.tail (Nat.succ_pos value)
  obtain ⟨third, leadsThird, hthird, hnumber, keepsThird⟩ :=
    leads_define hsecond hlaid.tail.tail.tail (Nat.succ_pos _)
      (show second.evaluate (.const .i64 (signedWord count)) =
        some (.word (BitVec.ofInt 64 (signedWord count))) from rfl)
  obtain ⟨fourth, leadsFourth, hfourth, hcallee, keepsFourth⟩ :=
    leads_define hthird hlaid.tail.tail.tail.tail (Nat.succ_pos _)
      (show third.evaluate (.helper helper) = some (.helper helper) from rfl)
  -- the operands of the call were defined before the callee and are what they were
  have hdescriptor : fourth.values ⟨value⟩ = some (.half (BitVec.ofInt 32 descriptor)) := by
    rw [keepsFourth ⟨value⟩ (by simp only; omega), keepsThird ⟨value⟩ (by simp only; omega),
      keepsSecond ⟨value⟩ (Nat.lt_succ_self value), hdescriptor]
  have haddress : fourth.values ⟨value + 2⟩ =
      some (.word (frame.base + BitVec.ofNat 64 machine.tape.pointer)) := by
    rw [keepsFourth ⟨value + 2⟩ (by simp only; omega),
      keepsThird ⟨value + 2⟩ (Nat.lt_succ_self _), haddress]
  have hnumber : fourth.values ⟨value + 3⟩ =
      some (.word (BitVec.ofInt 64 (signedWord count))) := by
    rw [keepsFourth ⟨value + 3⟩ (Nat.lt_succ_self _), hnumber]
  have hcall : (⟨⟨fourth.cells, machine.tape.pointer⟩, fourth.input, fourth.output⟩ : Machine) =
      machine := by
    rw [hfourth.cells, hfourth.input, hfourth.output]
  have heffect : fourth.effect (.call ⟨value + 4⟩ [⟨value⟩, ⟨value + 2⟩, ⟨value + 3⟩]) =
      some (fourth.call helper descriptor machine.tape.pointer count) := by
    simp only [State.effect, hcallee, hdescriptor, haddress, hnumber, cellAt?_add hfourth.base,
      Option.map_some, toInt_ofInt hlow hhigh, toNat_ofInt_signedWord hcount]
  have hleads := leads_execute hfourth.line hlaid.tail.tail.tail.tail.tail heffect
  refine ⟨_, frame.steps.trans leadsFirst (frame.steps.trans leadsSecond (frame.steps.trans
    leadsThird (frame.steps.trans leadsFourth hleads))), ?_⟩
  have hindex := hfourth.index
  rw [← pointer_iterate_act helper descriptor count machine] at hindex
  rw [State.call, hcall]
  exact { hfourth with
    line := congrArg (· + 1) hfourth.line
    index := hindex
    cells := rfl
    input := rfl
    output := rfl }

/-- The sum of two bytes. -/
theorem evaluate_add (state : State) (left right : Value) (number amount : UInt8)
    (hleft : state.values left = some (.byte number))
    (hright : state.values right = some (.byte amount)) :
    state.evaluate (.add left right) = some (.byte (number + amount)) := by
  rw [State.evaluate, hleft, hright]

/-- The difference of two bytes. -/
theorem evaluate_sub (state : State) (left right : Value) (number amount : UInt8)
    (hleft : state.values left = some (.byte number))
    (hright : state.values right = some (.byte amount)) :
    state.evaluate (.sub left right) = some (.byte (number - amount)) := by
  rw [State.evaluate, hleft, hright]

/-- Arithmetic is done on the current cell. -/
theorem leads_adjust {operation : Value → Value → Operation} {change : UInt8 → UInt8 → UInt8}
    (hoperation : ∀ (state : State) left right number amount,
      state.values left = some (.byte number) → state.values right = some (.byte amount) →
      state.evaluate (operation left right) = some (.byte (change number amount)))
    {count : Nat} (h : OnCell frame line machine state)
    (hlaid : frame.function.Laid line (adjustLines operation count value)) (hvalue : 0 < value) :
    ∃ next, frame.steps.Leads 8 state next ∧
      OnCell frame (line + 8) (machine.mapTape fun tape =>
        tape.setCurrent (change tape.current (UInt8.ofNat count))) next := by
  obtain ⟨hrest, hstore⟩ := Function.laid_append.mp hlaid
  obtain ⟨hload, hadjust⟩ := Function.laid_append.mp hrest
  obtain ⟨loaded, leadsLoaded, hloaded, hbyte, -⟩ := leads_load h hload hvalue
  have hconst : loaded.evaluate (.const .i8 (UInt8.ofNat count).toNat) =
      some (.byte (UInt8.ofNat count)) := by
    rw [State.evaluate, Datum.ofInt, ofInt_toNat]
  obtain ⟨counted, leadsCounted, hcounted, hamount, keepsCounted⟩ :=
    leads_define hloaded hadjust (Nat.succ_pos _) hconst
  have hchange := hoperation counted ⟨value + 2⟩ ⟨value + 3⟩ _ _
    ((keepsCounted ⟨value + 2⟩ (Nat.lt_succ_self _)).trans hbyte) hamount
  obtain ⟨changed, leadsChanged, hchanged, hresult, -⟩ :=
    leads_define hcounted hadjust.tail (Nat.succ_pos _) hchange
  obtain ⟨next, leadsNext, hnext⟩ :=
    leads_storeCell hchanged hstore (Nat.succ_pos _) hresult (Nat.lt_succ_self _)
  exact ⟨next, frame.steps.trans leadsLoaded (frame.steps.trans leadsCounted
    (frame.steps.trans leadsChanged leadsNext)), hnext⟩

/-- The lines of an op. -/
theorem comes_op {descriptors : Descriptors} {item : Op} (hfit : descriptors.Fit)
    (hdisplaced : item.Displaced) (hsized : item.Sized) (h : OnCell frame line machine state)
    (hlaid : frame.function.Laid line (item.lowered descriptors value label)) (hvalue : 0 < value)
    (slack : Nat) :
    frame.steps.Comes (OnCell frame (line + (item.lowered descriptors value label).length))
      (Leaves frame) slack state (item.actNative descriptors machine) := by
  cases item with
  | forward count =>
    have hcount : count < 0x80000000 := hdisplaced
    have hsmall : (count : Int).natAbs ≤ 0x80000000 := by omega
    show Steps.Comes _ (OnCell frame (line + 6)) _ _ _ (machine.moveBy (signedWord count))
    rw [signedWord_natCast (by omega)]
    replace hlaid : frame.function.Laid line (moveLines count value label) := hlaid
    -- otherwise the cast of the count is unfolded where the lines are compared
    generalize (count : Int) = delta at hlaid hsmall ⊢
    exact comes_move h hlaid hvalue hsmall slack
  | backward count =>
    have hcount : count < 0x80000000 := hdisplaced
    show Steps.Comes _ (OnCell frame (line + 6)) _ _ _ (machine.moveBy (-signedWord count))
    rw [signedWord_natCast (by omega)]
    exact comes_move h hlaid hvalue (by omega) slack
  | add count =>
    exact ⟨8, leads_adjust evaluate_add h hlaid hvalue⟩
  | sub count =>
    exact ⟨8, leads_adjust evaluate_sub h hlaid hvalue⟩
  | write count =>
    have hact : (Op.write count).actNative descriptors machine = .done _ :=
      Outcome.iterate_done (Helper.writeCell.act descriptors.output) count machine
    rw [hact]
    exact ⟨6, leads_call hfit.output.1 hfit.output.2 hsized h hlaid hvalue⟩
  | read count =>
    have hact : (Op.read count).actNative descriptors machine = .done _ :=
      Outcome.iterate_done (Helper.readCell.act descriptors.input) count machine
    rw [hact]
    exact ⟨6, leads_call hfit.input.1 hfit.input.2 hsized h hlaid hvalue⟩
  | setZero =>
    exact ⟨4, leads_clear h hlaid hvalue⟩
  | scanUntilZero step =>
    have hstep : -0x80000000 ≤ step ∧ step < 0x80000000 := hdisplaced
    exact comes_scan h hlaid hvalue (by omega) slack
  | transferAndZero delta =>
    have hdelta : -0x80000000 ≤ delta ∧ delta < 0x80000000 := hdisplaced
    exact comes_transfer h hlaid hvalue (by omega) slack
  | jumpIfZero target => exact ⟨0, state, rfl, h⟩
  | jumpIfNotZero target => exact ⟨0, state, rfl, h⟩

/-- The lines of a block implement it. -/
theorem implements_lowered {descriptors : Descriptors} (hfit : descriptors.Fit) {block : Block Op}
    (hall : block.All fun item => item.Displaced ∧ item.Sized) (hvalue : 0 < value)
    (hlaid : frame.function.Laid line (block.lowered descriptors value label))
    {behind : Machine → State → Prop} (hbehind : ∀ machine state,
      OnCell frame (line + (block.lowered descriptors value label).length) machine state →
      behind machine state) :
    frame.steps.Implements (Op.actNative descriptors) (Leaves frame) (OnCell frame line) block
      behind := by
  induction block generalizing line value label behind with
  | done => exact hbehind
  | op item rest ih =>
    obtain ⟨hitem, hrest⟩ := Function.laid_append.mp hlaid
    refine ⟨OnCell frame (line + (item.lowered descriptors value label).length),
      fun machine state slack h => comes_op hfit hall.1.1 hall.1.2 h hitem hvalue slack,
      ih hall.2 (Nat.lt_add_right _ hvalue) hrest fun machine state h => hbehind machine state ?_⟩
    rw [Block.lowered, List.length_append, ← Nat.add_assoc]
    exact h
  | loop body rest ihbody ihrest =>
    obtain ⟨hloop, hrest⟩ := Function.laid_append.mp hlaid
    obtain ⟨hfront, hend⟩ := Function.laid_append.mp hloop
    obtain ⟨hstart, hbody⟩ := Function.laid_append.mp hfront
    rw [List.length_append, ← Nat.add_assoc] at hend
    have hinside := (Function.laid_append.mp hstart).2.tail
    have houtside := (Function.laid_append.mp hend).2.tail
    let inner := (body.lowered descriptors (value + 3) (label + 2)).length
    -- the two tests of a loop go on in the same two places
    have htests : ∀ machine state,
        OnCell frame line machine state ∨ OnCell frame (line + 5 + inner) machine state →
        ∃ count next, 0 < count ∧ frame.steps.Leads count state next ∧
          if machine.tape.current = 0 then OnCell frame (line + 5 + inner + 5) machine next
          else OnCell frame (line + 5) machine next := by
      rintro machine state (h | h)
      · obtain ⟨next, hleads, -, hnext⟩ := leads_test h hstart hvalue hinside houtside
        exact ⟨4, next, Nat.succ_pos 3, hleads, hnext⟩
      · obtain ⟨next, hleads, -, hnext⟩ :=
          leads_test h hend (Nat.lt_add_right _ (Nat.succ_pos _)) hinside houtside
        exact ⟨4, next, Nat.succ_pos 3, hleads, hnext⟩
    refine ⟨fun machine state => OnCell frame line machine state ∨
      OnCell frame (line + 5 + inner) machine state, OnCell frame (line + 5),
      OnCell frame (line + 5 + inner + 5), fun _ _ => .inl, htests,
      ihbody hall.1 (Nat.succ_pos _) hbody fun _ _ => .inr, ?_⟩
    have hlength : line + (loopLines value label
        (body.lowered descriptors (value + 3) (label + 2))).length = line + 5 + inner + 5 := by
      rw [loopLines, List.length_append, List.length_append, ← Nat.add_assoc, ← Nat.add_assoc]
      rfl
    rw [hlength] at hrest
    refine ihrest hall.2 (Nat.lt_add_right _ hvalue) hrest fun machine state h =>
      hbehind machine state ?_
    rw [Block.lowered, List.length_append, ← Nat.add_assoc, hlength]
    exact h

end Ir

end TapeLang

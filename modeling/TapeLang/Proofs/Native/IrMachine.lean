import Mathlib.Logic.Function.Basic
import Mathlib.Logic.Function.Iterate
import TapeLang.Native.Ir

/-!
# The machine of intermediate code

What functions in intermediate code do: their values, the variable, the tape in memory, and the
helpers behind calls. Only the tape can be read and written, operands have to be of the types that
operations are for, and control goes from block to block by jumps; anything else has no meaning
here.

* `Ir.Function.step`: what a line does.
* `Ir.Function.find_eq_some`: a block is found by its label if the labels are distinct.
* `Ir.Function.step_of_execute`: a line that does not say where to go on is followed by the next.
* `Ir.Function.eq_of_returned`: a function returns in one way only.
-/

namespace TapeLang

namespace Ir

/-- What is known of a value. -/
inductive Datum where
  /-- It is a number of eight bits. -/
  | byte (number : UInt8)
  /-- It is a number of thirty-two bits. -/
  | half (number : BitVec 32)
  /-- It is a number of sixty-four bits. -/
  | word (number : BitVec 64)
  /-- It is the address of a helper. -/
  | helper (helper : Helper)

/-- A number as a value. -/
def Datum.ofInt : Width → Int → Datum
  | .i8, number => .byte (UInt8.ofInt number)
  | .i32, number => .half (BitVec.ofInt 32 number)
  | .i64, number => .word (BitVec.ofInt 64 number)

/-- What a helper does once to a machine whose current cell it is called on. -/
def Helper.act (descriptor : Int) : Helper → Machine → Machine
  | .writeCell => Machine.writeTo descriptor
  | .readCell => Machine.readFrom descriptor

/-- A function that is being executed. -/
structure State where
  /-- The index of the line to execute. -/
  line : Nat
  /-- The values that have been defined. -/
  values : Value → Option Datum
  /-- What the variable holds. -/
  index : Option (BitVec 64)
  /-- The address of the tape. -/
  base : BitVec 64
  /-- The cells of the tape. -/
  cells : Vector UInt8 tapeSize
  /-- What there is to read. -/
  input : Input
  /-- What has been written. -/
  output : Output

/-- What happens when a line is executed. -/
inductive Transition where
  /-- Another line follows. -/
  | next (state : State)
  /-- The function has returned. -/
  | returned (word : BitVec 64) (state : State)
  /-- The line has no meaning. -/
  | undefined

namespace State

/-- The cell at an address. -/
def cellAt? (state : State) (address : BitVec 64) : Option (Fin tapeSize) :=
  let offset := (address - state.base).toNat
  if h : offset < tapeSize then some ⟨offset, h⟩ else none

/-- What a value is defined as. -/
def evaluate (state : State) : Operation → Option Datum
  | .const width number => some (.ofInt width number)
  | .helper helper => some (.helper helper)
  | .index => state.index.map .word
  | .add left right =>
    match state.values left, state.values right with
    | some (.byte left), some (.byte right) => some (.byte (left + right))
    | some (.word left), some (.word right) => some (.word (left + right))
    | _, _ => none
  | .sub left right =>
    match state.values left, state.values right with
    | some (.byte left), some (.byte right) => some (.byte (left - right))
    | some (.word left), some (.word right) => some (.word (left - right))
    | _, _ => none
  | .addConst value number =>
    match state.values value with
    | some (.word word) => some (.word (word + BitVec.ofInt 64 number))
    | _ => none
  | .aboveEq value bound =>
    match state.values value with
    | some (.word word) => some (.byte (if word.ult (BitVec.ofNat 64 bound) then 0 else 1))
    | _ => none
  | .load address =>
    match state.values address with
    | some (.word address) =>
      (state.cellAt? address).map fun cell => .byte (state.cells.get cell)
    | _ => none

/-- Gives a value what it is defined as. -/
def define (state : State) (value : Value) (datum : Datum) : State :=
  { state with values := Function.update state.values value (some datum) }

/-- Changes a cell. -/
def setCell (state : State) (cell : Fin tapeSize) (byte : UInt8) : State :=
  { state with cells := state.cells.set cell byte cell.isLt }

/-- Calls a helper on a cell. -/
def call (state : State) (helper : Helper) (descriptor : Int) (cell : Fin tapeSize)
    (count : Nat) : State :=
  let machine := (helper.act descriptor)^[count] ⟨⟨state.cells, cell⟩, state.input, state.output⟩
  { state with cells := machine.tape.cells, input := machine.input, output := machine.output }

/-- What a line changes that does not say where to go on. -/
def effect (state : State) : Line → Option State
  | .define value operation => (state.evaluate operation).map (state.define value)
  | .setIndex value =>
    match state.values value with
    | some (.word word) => some { state with index := some word }
    | _ => none
  | .store value address =>
    match state.values value, state.values address with
    | some (.byte byte), some (.word address) =>
      (state.cellAt? address).map (state.setCell · byte)
    | _, _ => none
  | .call callee [descriptor, cell, count] =>
    match state.values callee, state.values descriptor, state.values cell, state.values count with
    | some (.helper helper), some (.half descriptor), some (.word address), some (.word count) =>
      (state.cellAt? address).map (state.call helper descriptor.toInt · count.toNat)
    | _, _, _, _ => none
  | _ => none

/-- Executes a line that the next one follows. -/
def execute (state : State) (line : Line) : Option State :=
  (state.effect line).map ({ · with line := state.line + 1 })

end State

/-- The block with a label: the index of its first line, and its parameters. -/
def findFrom (label : Label) : Nat → List Line → Option (Nat × List Value)
  | _, [] => none
  | line, .block other params :: rest =>
    if other = label then some (line, params) else findFrom label (line + 1) rest
  | line, _ :: rest => findFrom label (line + 1) rest

/-- The labels of the blocks that lines begin. -/
def labels : List Line → List Label
  | [] => []
  | .block label _ :: rest => label :: labels rest
  | _ :: rest => labels rest

namespace Function

/-- The block of a function with a label. -/
def find (function : Function) (label : Label) : Option (Nat × List Value) :=
  findFrom label 0 function.lines.toList

/-- Goes on in the block with a label, whose parameters are what the arguments are. -/
def enter (function : Function) (state : State) (label : Label) (args : List Value) : Transition :=
  match function.find label, args.mapM state.values with
  | some (line, params), some data =>
    if params.length = data.length then
      .next ((params.zip data).foldl (fun state entry => state.define entry.1 entry.2)
        { state with line := line + 1 })
    else .undefined
  | _, _ => .undefined

/-- Executes the line that is to be executed. -/
def step (function : Function) (state : State) : Transition :=
  match function.lines.toList[state.line]? with
  | some (.jump target args) => function.enter state target args
  | some (.branch condition target args other otherArgs) =>
    match state.values condition with
    | some (.byte byte) =>
      if byte = 0 then function.enter state other otherArgs else function.enter state target args
    | _ => .undefined
  | some (.ret value) =>
    match state.values value with
    | some (.word word) => .returned word state
    | _ => .undefined
  | some line =>
    match state.execute line with
    | some state => .next state
    | none => .undefined
  | none => .undefined

/-- The state in which a function is called with the address of a tape, of which the cells are those
of a machine. -/
def invoke? (function : Function) (base : BitVec 64) (machine : Machine) : Option State :=
  match function.lines.toList with
  | .block _ [param] :: _ => some {
      line := 1
      values := Function.update (fun _ => none) param (some (.word base))
      index := none
      base
      cells := machine.tape.cells
      input := machine.input
      output := machine.output }
  | _ => none

/-- The state after a number of steps, unless the function has returned or has no meaning. -/
def after (function : Function) : Nat → State → Option State
  | 0, state => some state
  | steps + 1, state =>
    match function.step state with
    | .next state => function.after steps state
    | .returned _ _ | .undefined => none

/-- A function that is executed returns a word. -/
def Returns (function : Function) (state : State) (word : BitVec 64) (final : State) : Prop :=
  ∃ steps last, function.after steps state = some last ∧ function.step last = .returned word final

/-- Lines of a function begin at an index. -/
def Laid (function : Function) (line : Nat) (part : List Line) : Prop :=
  part <+: function.lines.toList.drop line

/-- No two blocks of a function have the same label. -/
def Distinct (function : Function) : Prop :=
  (labels function.lines.toList).Nodup

end Function

section Labels

variable {label : Label} {params : List Value} {before after : List Line}

/-- The labels of lines in a row. -/
@[simp]
theorem labels_append (lines more : List Line) :
    labels (lines ++ more) = labels lines ++ labels more := by
  induction lines with
  | nil => rfl
  | cons line lines ih => cases line <;> simp only [List.cons_append, labels, ih]

/-- A block is found by its label if no block before it has the same. -/
theorem findFrom_eq_some (line : Nat) (h : label ∉ labels before) :
    findFrom label line (before ++ .block label params :: after) =
      some (line + before.length, params) := by
  induction before generalizing line with
  | nil => exact if_pos rfl
  | cons first before ih =>
    rw [List.cons_append, List.length_cons, Nat.add_comm before.length, ← Nat.add_assoc]
    cases first with
    | block other params =>
      rw [labels, List.mem_cons, not_or] at h
      rw [findFrom, if_neg (Ne.symm h.1)]
      exact ih (line + 1) h.2
    | _ => exact ih (line + 1) h

end Labels

namespace Function

variable {function : Function} {line steps more : Nat} {part parts : List Line}
  {state mid next : State}

/-- Lines in a row begin one after another. -/
theorem laid_append :
    function.Laid line (part ++ parts) ↔
      function.Laid line part ∧ function.Laid (line + part.length) parts := by
  rw [Laid, Laid, Laid, ← List.drop_drop]
  constructor
  · rintro ⟨rest, hrest⟩
    rw [← hrest, List.append_assoc, List.drop_left]
    exact ⟨List.prefix_append _ _, List.prefix_append _ _⟩
  · rintro ⟨⟨rest, hrest⟩, hparts⟩
    rw [← hrest, List.drop_left] at hparts
    rw [← hrest]
    exact (List.prefix_append_right_inj part).mpr hparts

/-- The first of some lines is the one at their index. -/
theorem Laid.getElem?_eq {first : Line} (h : function.Laid line (first :: part)) :
    function.lines.toList[line]? = some first := by
  obtain ⟨rest, hrest⟩ := h
  rw [← Nat.add_zero line, ← List.getElem?_drop, ← hrest]
  rfl

/-- The other lines begin behind the first. -/
theorem Laid.tail {first : Line} (h : function.Laid line (first :: part)) :
    function.Laid (line + 1) part :=
  (laid_append.mp (show function.Laid line ([first] ++ part) from h)).2

/-- A block is found by its label. -/
theorem find_eq_some {label : Label} {params : List Value} (hdistinct : function.Distinct)
    (h : function.Laid line (.block label params :: part)) :
    function.find label = some (line, params) := by
  obtain ⟨rest, hrest⟩ := h
  have hlines : function.lines.toList =
      function.lines.toList.take line ++ .block label params :: (part ++ rest) := by
    rw [← List.cons_append, hrest, List.take_append_drop]
  have hlength : (function.lines.toList.take line).length = line := by
    refine List.length_take_of_le (Nat.le_of_lt (Nat.lt_of_not_le fun hle => ?_))
    rw [List.drop_eq_nil_of_le hle] at hrest
    cases hrest
  -- the label is taken already, so that no block before this one has it
  have hnotMem : label ∉ labels (function.lines.toList.take line) := by
    intro hmem
    rw [Distinct, hlines, labels_append, List.nodup_append] at hdistinct
    exact hdistinct.2.2 label hmem label List.mem_cons_self rfl
  rw [find, hlines, findFrom_eq_some 0 hnotMem, hlength, Nat.zero_add]

/-- Steps follow one another. -/
theorem after_add (steps more : Nat) (state : State) :
    function.after (steps + more) state =
      (function.after steps state).bind (function.after more) := by
  induction steps generalizing state with
  | zero => rw [Nat.zero_add]; rfl
  | succ steps ih =>
    rw [Nat.add_right_comm, after, after]
    cases function.step state with
    | next state => exact ih state
    | returned word state => rfl
    | undefined => rfl

/-- A state that is not the last one is followed by another one. -/
theorem exists_next_of_after_lt {last : State} (hlast : function.after steps state = some last)
    (hmid : function.after more state = some mid) (hlt : more < steps) :
    ∃ next, function.step mid = .next next := by
  obtain ⟨count, rfl⟩ : ∃ count, steps = more + (count + 1) := ⟨steps - more - 1, by omega⟩
  rw [after_add, hmid, Option.bind_some, after] at hlast
  cases hstep : function.step mid with
  | next next => exact ⟨next, rfl⟩
  | returned word final =>
    rw [hstep] at hlast
    cases hlast
  | undefined =>
    rw [hstep] at hlast
    cases hlast

/-- A function returns in one way only. -/
theorem eq_of_returned {last : State} {word word' : BitVec 64} {final final' : State}
    (hlast : function.after steps state = some last)
    (hreturned : function.step last = .returned word final)
    (hmid : function.after more state = some mid)
    (hreturned' : function.step mid = .returned word' final') : word = word' ∧ final = final' := by
  -- of two returns neither comes first, since a function goes no further once it has returned
  rcases Nat.lt_trichotomy more steps with hlt | heq | hgt
  · obtain ⟨next, hnext⟩ := exists_next_of_after_lt hlast hmid hlt
    rw [hnext] at hreturned'
    cases hreturned'
  · rw [heq, hlast] at hmid
    cases hmid
    rw [hreturned] at hreturned'
    cases hreturned'
    exact ⟨rfl, rfl⟩
  · obtain ⟨next, hnext⟩ := exists_next_of_after_lt hmid hlast hgt
    rw [hnext] at hreturned
    cases hreturned

/-- A line that the next one follows is executed. -/
theorem step_of_execute {line : Line} (hline : function.lines.toList[state.line]? = some line)
    (hexecute : state.execute line = some next) : function.step state = .next next := by
  rw [step, hline]
  cases line with
  -- what begins a block or says where to go on has no effect of its own
  | block label params => cases hexecute
  | jump target args => cases hexecute
  | branch condition target args other otherArgs => cases hexecute
  | ret value => cases hexecute
  | _ => simp only [hexecute]

end Function

end Ir

end TapeLang

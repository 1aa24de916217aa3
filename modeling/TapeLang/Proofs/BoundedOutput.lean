import Mathlib.Data.List.Infix
import TapeLang.Proofs.Specialization
import TapeLang.Proofs.Tabled

/-!
# Outputs that stop taking bytes

An output may take a number of bytes and refuse all that follow, by failing or by taking nothing.
A run with such an output is compared with the run on the same tape and input whose output takes
every byte. The latter writes in certain moments, one for each byte; the moments of a fused write
lie within the op. As long as the moments are no more than the bytes that are taken, the two runs
do the same. Otherwise the bounded run ends in the moment of the first byte that is refused.

* `Instr.moments`, `Op.moments`: the moments in which one instruction or op writes a byte.
* `Scanning.moments`, `Tabled.moments`, `Bytecode.moments`: those of a run, in order.
* `WritesIn`: a computation writes in the given moments and does not otherwise depend on the output.
* `WritesIn.bind_done`, `WritesIn.walk`: what is put together from such computations is one.
* `output_cuts_short`: a bounded output only cuts a run short, for each of the interpreters.
-/

namespace TapeLang

/-- The states in which the repetitions of an action begin, in order. -/
def Outcome.starts {σ : Type} (action : σ → Outcome σ) : Nat → σ → List σ
  | 0, _ => []
  | count + 1, state =>
    match action state with
    | .done next => state :: starts action count next
    | .failed .. | .unfinished => [state]

/-- The state that an outcome leaves behind, seen through a view. -/
theorem Outcome.state?_map {σ τ : Type} (outcome : Outcome σ) (view : σ → τ) :
    (outcome.map view).state? = outcome.state?.map view := by
  cases outcome <;> rfl

/-- Views that agree on the state that an outcome leaves behind show the same outcome. -/
theorem Outcome.map_congr {σ τ : Type} {outcome : Outcome σ} {view view' : σ → τ}
    (h : ∀ state, outcome.state? = some state → view state = view' state) :
    outcome.map view = outcome.map view' := by
  cases outcome with
  | done state => exact congrArg Outcome.done (h state rfl)
  | failed error state => exact congrArg (Outcome.failed error) (h state rfl)
  | unfinished => rfl

/-- Nothing comes after a computation that does not come to its end. -/
theorem Outcome.bind_of_ne_done {σ : Type} {outcome : Outcome σ}
    (h : ∀ next, outcome ≠ .done next) (rest : σ → Outcome σ) : outcome.bind rest = outcome := by
  cases outcome with
  | done next => exact absurd rfl (h next)
  | failed error next => rfl
  | unfinished => rfl

/-- The text of the error with which an output refuses bytes, if it refuses them for good. -/
def Refusal.text? : Refusal → Option String
  | fails text => some text
  | takesNothing => some "failed to write whole buffer"
  | interrupts => none

/-- The machine whose output has room for `room` bytes in all. -/
def Machine.bounded (room : Nat) (refusal : Refusal) (machine : Machine) : Machine :=
  { machine with output := ⟨machine.output.bytes, some (room, refusal)⟩ }

namespace Config

/-- The configuration with another output. -/
def withOutput (config : Config) (output : Output) : Config :=
  ⟨config.position, { config.machine with output := output }⟩

@[simp]
theorem position_withOutput (config : Config) (output : Output) :
    (config.withOutput output).position = config.position := rfl

@[simp]
theorem atZero_withOutput (config : Config) (output : Output) :
    (config.withOutput output).atZero = config.atZero := rfl

/-- The output with the bytes of the current cells in the given moments. -/
def outputAfter (config : Config) (moments : List Config) : Output :=
  { config.machine.output with
    bytes := config.machine.output.bytes ++ (moments.map (·.machine.tape.current)).toArray }

/-- The configuration whose output has room for `room` bytes in all. -/
def bounded (room : Nat) (refusal : Refusal) (config : Config) : Config :=
  ⟨config.position, config.machine.bounded room refusal⟩

/-- Changes the machine and stays at the position. -/
def within (action : Machine → Outcome Machine) (config : Config) : Outcome Config :=
  (action config.machine).map fun machine => ⟨config.position, machine⟩

/-- An action is carried out in place before the position is advanced. -/
theorem act_eq_within_bind (config : Config) (action : Machine → Outcome Machine) :
    config.act action = (config.within action).bind fun next => .done next.advance := by
  obtain ⟨position, machine⟩ := config
  simp only [act, within]
  cases action machine <;> rfl

/-- A repeated action is repeated in place. -/
theorem within_iterate (action : Machine → Outcome Machine) (count : Nat) (config : Config) :
    config.within (Outcome.iterate action count) =
      Outcome.iterate (within action) count config := by
  induction count generalizing config with
  | zero => rfl
  | succ count ih =>
    rw [Outcome.iterate_succ, ← funext ih]
    simp only [within, Outcome.iterate_succ]
    cases action config.machine <;> rfl

end Config

/-- The moments in which an instruction writes a byte. -/
def Instr.moments (instr : Instr) (config : Config) : List Config :=
  match instr with
  | .write => [config]
  | _ => []

/-- The moments in which an op writes a byte: the beginnings of its single writes. -/
def Op.moments (op : Op) (config : Config) : List Config :=
  match op with
  | .write count => Outcome.starts (Config.within Machine.write) count config
  | _ => []

/-- The moments in which the items of a trail write bytes. -/
def momentsOn {ι : Type} (fetch : Config → Option ι) (moments : ι → Config → List Config)
    (visited : List Config) : List Config :=
  visited.flatMap fun config => (fetch config).elim [] fun item => moments item config

/-- What an outcome becomes if the moment after the first `count` is one in which a byte is
refused. -/
def Outcome.cutAfter (count room : Nat) (refusal : Refusal) (text : String)
    (moments : List Config) (outcome : Outcome Config) : Outcome Config :=
  match moments[count]? with
  | some moment => .failed (.io text) (moment.bounded room refusal)
  | none => outcome.map (·.bounded room refusal)

/-- A computation writes a byte in each of the moments and does not otherwise depend on the
output. -/
structure WritesIn (moments : List Config) (compute : Config → Outcome Config) (config : Config) :
    Prop where
  /-- The bytes of the moments are added to the output. -/
  output_eq : ∀ reached, (compute config).state? = some reached →
    reached.machine.output = config.outputAfter moments
  /-- In each moment the bytes of those before it have been added. -/
  moment_eq : ∀ k moment, moments[k]? = some moment →
    moment.machine.output = config.outputAfter (moments.take k)
  /-- With a bounded output the computation is cut off in the moment for which there is no room. -/
  bounded_eq : ∀ {room : Nat} {refusal : Refusal} {text : String}, refusal.text? = some text →
    config.machine.output.bytes.size ≤ room →
    compute (config.bounded room refusal) =
      (compute config).cutAfter (room - config.machine.output.bytes.size) room refusal text moments

section Computations

variable {config : Config} {compute rest : Config → Outcome Config} {moments later : List Config}

namespace Config

/-- Bytes that are added after others are added to them. -/
theorem outputAfter_append {next : Config} (h : next.machine.output = config.outputAfter moments)
    (later : List Config) : next.outputAfter later = config.outputAfter (moments ++ later) := by
  rw [outputAfter, h]
  simp [outputAfter, Array.append_assoc]

/-- Without moments the output stays as it is. -/
theorem outputAfter_nil (config : Config) : config.outputAfter [] = config.machine.output := by
  simp [outputAfter]

/-- A configuration with the same bytes is bounded by giving it the bounded output. -/
theorem bounded_of_output_eq {reached : Config} (h : reached.machine.output = config.machine.output)
    (room : Nat) (refusal : Refusal) :
    reached.bounded room refusal =
      reached.withOutput ⟨config.machine.output.bytes, some (room, refusal)⟩ := by
  simp only [bounded, withOutput, Machine.bounded, h]

end Config

/-- In the moments up to the one that is cut off nothing is refused. -/
theorem Outcome.cutAfter_append {count room : Nat} {refusal : Refusal} {text : String}
    (hle : moments.length ≤ count) (later : List Config) (outcome : Outcome Config) :
    outcome.cutAfter count room refusal text (moments ++ later) =
      outcome.cutAfter (count - moments.length) room refusal text later := by
  simp only [cutAfter, List.getElem?_append_right hle]

/-- To cut a computation off does not bring it to its end. -/
theorem Outcome.cutAfter_ne_done {count room : Nat} {refusal : Refusal} {text : String}
    {outcome : Outcome Config} (h : ∀ next, outcome ≠ .done next) (next : Config) :
    outcome.cutAfter count room refusal text moments ≠ .done next := by
  unfold cutAfter
  split
  · simp
  · cases outcome with
    | done reached => exact absurd rfl (h reached)
    | failed error reached => simp
    | unfinished => simp

namespace WritesIn

/-- A computation that comes to its end leaves the limit of the output as it is. -/
theorem limit_eq {next : Config} (h : WritesIn moments compute config)
    (hnext : compute config = .done next) :
    next.machine.output.limit = config.machine.output.limit := by
  rw [h.output_eq next (by rw [hnext, Outcome.state?]), Config.outputAfter]

/-- Only what a computation does in the configuration matters, with its output and with bounded
ones. -/
theorem congr {compute' : Config → Outcome Config} (h : WritesIn moments compute config)
    (heq : compute' config = compute config)
    (hbounded : ∀ room refusal,
      compute' (config.bounded room refusal) = compute (config.bounded room refusal)) :
    WritesIn moments compute' config where
  output_eq reached hreached := h.output_eq reached (heq ▸ hreached)
  moment_eq := h.moment_eq
  bounded_eq htext hroom := by rw [hbounded, heq, h.bounded_eq htext hroom]

/-- A computation that does the same whatever the output is writes nothing. -/
theorem of_ignores (h : ∀ output,
    compute (config.withOutput output) = (compute config).map (·.withOutput output)) :
    WritesIn [] compute config := by
  -- with the output that there is, the equation says that the output is kept
  have hkept : ∀ reached, (compute config).state? = some reached →
      reached.machine.output = config.machine.output := by
    intro reached hreached
    have hsame : compute config = (compute config).map (·.withOutput config.machine.output) :=
      h config.machine.output
    rw [hsame, Outcome.state?_map, Option.map_eq_some_iff] at hreached
    obtain ⟨next, -, rfl⟩ := hreached
    rfl
  refine ⟨?_, ?_, ?_⟩
  · intro reached hreached
    rw [hkept reached hreached, Config.outputAfter_nil]
  · simp
  · intro room refusal text _ _
    rw [Config.bounded_of_output_eq rfl, h]
    exact Outcome.map_congr fun reached hreached =>
      (Config.bounded_of_output_eq (hkept reached hreached) room refusal).symm

/-- A computation that goes on after another writes in the moments of both. -/
theorem bind_done {next : Config} (h : WritesIn moments compute config)
    (hnext : compute config = .done next) (hrest : WritesIn later rest next) :
    WritesIn (moments ++ later) (fun config => (compute config).bind rest) config := by
  have hout : next.machine.output = config.outputAfter moments :=
    h.output_eq next (by rw [hnext, Outcome.state?])
  refine ⟨?_, ?_, ?_⟩
  · intro reached hreached
    simp only [hnext, Outcome.bind_done] at hreached
    rw [hrest.output_eq reached hreached, Config.outputAfter_append hout]
  · intro k moment hmoment
    rcases Nat.lt_or_ge k moments.length with hlt | hge
    · rw [List.getElem?_append_left hlt] at hmoment
      rw [h.moment_eq k moment hmoment, List.take_append_of_le_length (by omega)]
    · rw [List.getElem?_append_right hge] at hmoment
      rw [hrest.moment_eq _ moment hmoment, Config.outputAfter_append hout, List.take_append,
        List.take_of_length_le hge]
  · intro room refusal text htext hroom
    simp only [h.bounded_eq htext hroom, hnext, Outcome.bind_done]
    rcases Nat.lt_or_ge (room - config.machine.output.bytes.size) moments.length with hlt | hge
    -- the byte is refused before the computation comes to the rest
    · simp [Outcome.cutAfter, List.getElem?_append_left hlt, List.getElem?_eq_getElem hlt]
    · have hsize : next.machine.output.bytes.size =
          config.machine.output.bytes.size + moments.length := by
        simp [hout, Config.outputAfter]
      rw [Outcome.cutAfter_append hge]
      simp only [Outcome.cutAfter, List.getElem?_eq_none hge, Outcome.map_done, Outcome.bind_done]
      rw [hrest.bounded_eq htext (by omega), hsize, Nat.sub_add_eq]
      rfl

/-- A computation that does not come to its end keeps what comes after it from being done. -/
theorem bind_of_ne_done (h : WritesIn moments compute config)
    (hstuck : ∀ next, compute config ≠ .done next) (rest : Config → Outcome Config) :
    WritesIn moments (fun config => (compute config).bind rest) config := by
  refine ⟨?_, h.moment_eq, ?_⟩
  · intro reached hreached
    rw [Outcome.bind_of_ne_done hstuck] at hreached
    exact h.output_eq reached hreached
  · intro room refusal text htext hroom
    rw [Outcome.bind_of_ne_done hstuck, h.bounded_eq htext hroom,
      Outcome.bind_of_ne_done (Outcome.cutAfter_ne_done hstuck)]

/-- A single write adds the current cell to an output without limit. -/
theorem within_write (hfree : config.machine.output.limit = none) :
    WritesIn [config] (Config.within Machine.write) config := by
  obtain ⟨position, tape, input, bytes, limit⟩ := config
  obtain rfl : limit = none := hfree
  refine ⟨?_, ?_, ?_⟩
  · intro reached hreached
    obtain rfl : _ = reached := Option.some.inj hreached
    simp [Config.outputAfter]
  · intro k moment hmoment
    cases k with
    | zero =>
      obtain rfl : _ = moment := Option.some.inj hmoment
      simp [Config.outputAfter]
    | succ k => simp at hmoment
  · intro room refusal text htext hroom
    -- there is room for the byte, or the output is full and refuses it
    rcases Nat.lt_or_ge bytes.size room with hlt | hge
    · have hcount : ([⟨position, tape, input, bytes, none⟩] : List Config)[room - bytes.size]? =
          none := List.getElem?_eq_none (by simp; omega)
      simp only [Outcome.cutAfter, hcount]
      simp [Config.within, Config.bounded, Machine.bounded, Machine.write, Output.write, hlt]
    · obtain rfl : room = bytes.size := by simp at hroom; omega
      simp only [Outcome.cutAfter, Nat.sub_self]
      cases refusal <;>
        simp_all [Config.within, Config.bounded, Machine.bounded, Machine.write, Output.write,
          Refusal.text?]

/-- Repeated writes write in the moments in which they begin. -/
theorem iterate_within_write (count : Nat) (hfree : config.machine.output.limit = none) :
    WritesIn (Outcome.starts (Config.within Machine.write) count config)
      (Outcome.iterate (Config.within Machine.write) count) config := by
  induction count generalizing config with
  | zero => exact of_ignores fun _ => rfl
  | succ count ih =>
    have hwrite := within_write hfree
    rw [funext (Outcome.iterate_succ _ count), Outcome.starts]
    cases hnext : config.within Machine.write with
    | done next => exact hwrite.bind_done hnext (ih ((hwrite.limit_eq hnext).trans hfree))
    | failed error next => exact hwrite.bind_of_ne_done (by simp [hnext]) _
    | unfinished => exact hwrite.bind_of_ne_done (by simp [hnext]) _

/-- An action writes in the same moments when the position is advanced after it. -/
theorem act {action : Machine → Outcome Machine}
    (h : WritesIn moments (Config.within action) config) :
    WritesIn moments (·.act action) config := by
  rw [funext fun config : Config => config.act_eq_within_bind action]
  by_cases hdone : ∃ next, config.within action = .done next
  · obtain ⟨next, hnext⟩ := hdone
    have hadvance : WritesIn [] (fun next => .done next.advance) next := of_ignores fun _ => rfl
    simpa using h.bind_done hnext hadvance
  · exact h.bind_of_ne_done (not_exists.mp hdone) _

/-- A walk writes in the moments of the items on its way. -/
theorem walk {ι : Type} {fetch : Config → Option ι} {act : ι → Config → Outcome Config}
    {momentsOf : ι → Config → List Config}
    (hfetch : ∀ config room refusal, fetch (config.bounded room refusal) = fetch config)
    (hact : ∀ item config, config.machine.output.limit = none →
      WritesIn (momentsOf item config) (act item) config)
    (fuel : Nat) (hfree : config.machine.output.limit = none) :
    WritesIn (momentsOn fetch momentsOf (trail fetch act fuel config)) (walk fetch act fuel)
      config := by
  induction fuel generalizing config with
  | zero => exact of_ignores fun _ => rfl
  | succ fuel ih =>
    cases hitem : fetch config with
    | none =>
      have hnothing : WritesIn [] .done config := of_ignores fun _ => rfl
      simp only [trail, hitem, momentsOn, List.flatMap_nil]
      refine hnothing.congr ?_ fun room refusal => ?_
      · simp only [walk_succ, hitem]
      · simp only [walk_succ, hfetch, hitem]
    | some item =>
      have hitemMoments := hact item config hfree
      -- the bounded walk fetches the same item
      have hwalk : ∀ {moments : List Config},
          WritesIn moments (fun config => (act item config).bind (TapeLang.walk fetch act fuel))
            config → WritesIn moments (TapeLang.walk fetch act (fuel + 1)) config := by
        intro moments h
        refine h.congr ?_ fun room refusal => ?_
        · simp only [walk_succ, hitem]
        · simp only [walk_succ, hfetch, hitem]
      apply hwalk
      simp only [trail, hitem]
      cases hnext : act item config with
      | done next =>
        have hlater := ih ((hitemMoments.limit_eq hnext).trans hfree)
        simpa [momentsOn, hitem] using hitemMoments.bind_done hnext hlater
      | failed error next =>
        simpa [momentsOn, hitem] using hitemMoments.bind_of_ne_done (by simp [hnext]) _
      | unfinished =>
        simpa [momentsOn, hitem] using hitemMoments.bind_of_ne_done (by simp [hnext]) _

end WritesIn

/-- An action does the same whatever the output is, and keeps the output. -/
def IgnoresOutput (action : Machine → Outcome Machine) : Prop :=
  ∀ machine output, action { machine with output := output } =
    (action machine).map fun machine => { machine with output := output }

namespace IgnoresOutput

/-- Reading ignores the output. -/
theorem read : IgnoresOutput Machine.read := by
  rintro ⟨tape, input, before⟩ output
  simp only [Machine.read]
  split <;> rfl

/-- What is done to the tape ignores the output. -/
theorem onTape (action : Tape → Outcome Tape) : IgnoresOutput (·.onTape action) := by
  rintro ⟨tape, input, before⟩ output
  simp only [Machine.onTape]
  cases action tape <;> rfl

/-- Repeating an action that ignores the output ignores it. -/
theorem iterate {action : Machine → Outcome Machine} (h : IgnoresOutput action) (count : Nat) :
    IgnoresOutput (Outcome.iterate action count) := by
  intro machine output
  induction count generalizing machine with
  | zero => rfl
  | succ count ih =>
    rw [Outcome.iterate_succ, Outcome.iterate_succ, h]
    cases action machine with
    | done next => exact ih next
    | failed error next => rfl
    | unfinished => rfl

/-- Every instruction other than a write ignores the output. -/
theorem instr {instr : Instr} (h : instr ≠ .write) : IgnoresOutput instr.act := by
  cases instr with
  | right => exact onTape (·.moveBy 1)
  | left => exact onTape (·.moveBy (-1))
  | read => exact read
  | write => exact absurd rfl h
  | increment | decrement | loopStart | loopEnd => exact fun _ _ => rfl

/-- Every op other than a write ignores the output. -/
theorem op {op : Op} (h : ∀ count, op ≠ .write count) : IgnoresOutput op.act := by
  cases op with
  | forward count => exact onTape (·.moveBy (signedWord count))
  | backward count => exact onTape (·.moveBy (-signedWord count))
  | scanUntilZero step => exact onTape (·.scanUntilZero step)
  | transferAndZero offset => exact onTape (·.transferAndZero offset)
  | read count => exact read.iterate count
  | write count => exact absurd rfl (h count)
  | add | sub | jumpIfZero | jumpIfNotZero | setZero => exact fun _ _ => rfl

/-- An action that ignores the output writes nothing. -/
theorem writesIn_act {action : Machine → Outcome Machine} (h : IgnoresOutput action) :
    WritesIn [] (·.act action) config := by
  refine WritesIn.act (WritesIn.of_ignores fun output => ?_)
  show (action { config.machine with output := output }).map _ = _
  rw [h, Config.within]
  cases action config.machine <;> rfl

end IgnoresOutput

/-- An instruction writes in its moments. -/
theorem Instr.writesIn_act (instr : Instr) (hfree : config.machine.output.limit = none) :
    WritesIn (instr.moments config) (·.act instr.act) config := by
  by_cases hwrite : instr = .write
  · subst hwrite
    exact (WritesIn.within_write hfree).act
  · have hnone : instr.moments config = [] := by
      cases instr <;> first | rfl | exact absurd rfl hwrite
    rw [hnone]
    exact (IgnoresOutput.instr hwrite).writesIn_act

/-- An op writes in its moments. -/
theorem Op.writesIn_act (op : Op) (hfree : config.machine.output.limit = none) :
    WritesIn (op.moments config) (·.act op.act) config := by
  by_cases hwrite : ∃ count, op = .write count
  · obtain ⟨count, rfl⟩ := hwrite
    refine WritesIn.act ?_
    rw [show Config.within (Op.write count).act = _ from
      funext (Config.within_iterate Machine.write count)]
    exact WritesIn.iterate_within_write count hfree
  · have hnone : op.moments config = [] := by
      cases op <;> first | rfl | exact absurd ⟨_, rfl⟩ hwrite
    rw [hnone]
    exact (IgnoresOutput.op (not_exists.mp hwrite)).writesIn_act

variable {program : Program} {table : JumpTable} {size : Nat}

/-- A step of the scanning interpreter writes in the moments of its instruction. -/
theorem Scanning.writesIn_step (instr : Instr) (hfree : config.machine.output.limit = none) :
    WritesIn (instr.moments config) (step program instr) config := by
  cases instr with
  | loopStart =>
    refine WritesIn.of_ignores fun output => ?_
    simp only [step, Config.position_withOutput]
    show (if config.atZero then _ else _) = _
    cases config.atZero with
    | true => cases program.closeOf config.position <;> rfl
    | false => rfl
  | loopEnd =>
    refine WritesIn.of_ignores fun output => ?_
    simp only [step, Config.position_withOutput]
    show (if config.atZero then _ else _) = _
    cases config.atZero with
    | true => rfl
    | false => cases program.openOf config.position <;> rfl
  | _ => exact Instr.writesIn_act _ hfree

/-- A jump with a table is the same whatever the output is. -/
theorem Tabled.jump_withOutput (table : JumpTable) (config : Config) (output : Output) :
    jump table (config.withOutput output) = (jump table config).map (·.withOutput output) := by
  simp only [jump, Config.position_withOutput]
  split <;> rfl

/-- A step of the jump-table interpreter writes in the moments of its instruction. -/
theorem Tabled.writesIn_step (instr : Instr) (hfree : config.machine.output.limit = none) :
    WritesIn (instr.moments config) (step table instr) config := by
  cases instr with
  | loopStart =>
    refine WritesIn.of_ignores fun output => ?_
    simp only [step, Config.atZero_withOutput, jump_withOutput]
    cases config.atZero <;> rfl
  | loopEnd =>
    refine WritesIn.of_ignores fun output => ?_
    simp only [step, Config.atZero_withOutput, jump_withOutput]
    cases config.atZero <;> rfl
  | _ => exact Instr.writesIn_act _ hfree

/-- A jump to a target is the same whatever the output is. -/
theorem Bytecode.jump_withOutput (size target : Nat) (config : Config) (output : Output) :
    jump size target (config.withOutput output) =
      (jump size target config).map (·.withOutput output) := by
  simp only [jump, Config.position_withOutput]
  split <;> rfl

/-- A step of the op-stream interpreter writes in the moments of its op. -/
theorem Bytecode.writesIn_step (op : Op) (hfree : config.machine.output.limit = none) :
    WritesIn (op.moments config) (step size op) config := by
  cases op with
  | jumpIfZero target =>
    refine WritesIn.of_ignores fun output => ?_
    simp only [step, Config.atZero_withOutput, jump_withOutput]
    cases config.atZero <;> rfl
  | jumpIfNotZero target =>
    refine WritesIn.of_ignores fun output => ?_
    simp only [step, Config.atZero_withOutput, jump_withOutput]
    cases config.atZero <;> rfl
  | _ => exact Op.writesIn_act _ hfree

end Computations

/-- The moments in which the scanning interpreter writes a byte, within some fuel. -/
def Scanning.moments (program : Program) (fuel : Nat) (machine : Machine) : List Machine :=
  (momentsOn (fun config => program.instrs[config.position]?) Instr.moments
    (trailFrom program fuel ⟨0, machine⟩)).map (·.machine)

/-- The moments in which the jump-table interpreter writes a byte with a given table. -/
def Tabled.momentsWith (program : Program) (table : JumpTable) (fuel : Nat) (machine : Machine) :
    List Machine :=
  (momentsOn (fun config => program.instrs[config.position]?) Instr.moments
    (trailFrom program table fuel ⟨0, machine⟩)).map (·.machine)

/-- The moments in which the jump-table interpreter writes a byte; there are none if the program
is not begun. -/
def Tabled.moments (program : Program) (fuel : Nat) (machine : Machine) : List Machine :=
  match program.resolveJumps with
  | .ok table => momentsWith program table fuel machine
  | .error _ => []

/-- The moments in which a run of ops writes a byte, within some fuel. -/
def Bytecode.moments (ops : Array Op) (fuel : Nat) (machine : Machine) : List Machine :=
  (momentsOn (fun config => ops[config.position]?) Op.moments
    (trailFrom ops fuel ⟨0, machine⟩)).map (·.machine)

/-- With more fuel a walk acts in the same states first. -/
theorem trail_prefix {σ ι : Type} (fetch : σ → Option ι) (act : ι → σ → Outcome σ)
    {fuel more : Nat} (hle : fuel ≤ more) (state : σ) :
    trail fetch act fuel state <+: trail fetch act more state := by
  induction fuel generalizing more state with
  | zero => exact List.nil_prefix
  | succ fuel ih =>
    obtain ⟨more, rfl⟩ : ∃ k, more = k + 1 := ⟨more - 1, by omega⟩
    rw [trail, trail]
    cases fetch state with
    | none => exact List.nil_prefix
    | some item =>
      simp only
      cases act item state with
      | done next => exact List.cons_prefix_cons.mpr ⟨rfl, ih (by omega) next⟩
      | failed error next => exact List.prefix_rfl
      | unfinished => exact List.prefix_rfl

/-- A run that writes in the given moments is only cut short by an output that takes `n` more
bytes and then fails with `text`. -/
structure CutsShort (run : Nat → Machine → Outcome Machine)
    (moments : Nat → Machine → List Machine) (machine : Machine) (n : Nat) (refusal : Refusal)
    (text : String) : Prop where
  /-- A run that writes at most `n` bytes is the same with the bounded output, whether it ends or
  is still going. -/
  within_eq : ∀ fuel, (moments fuel machine).length ≤ n →
    run fuel (machine.bounded (machine.output.bytes.size + n) refusal) =
      (run fuel machine).map (·.bounded (machine.output.bytes.size + n) refusal)
  /-- A run that writes more than `n` bytes ends in the moment of the next with the bounded
  output, behind the first `n` bytes. -/
  beyond_eq : ∀ fuel, n < (moments fuel machine).length →
    ∃ moment, (moments fuel machine)[n]? = some moment ∧
      run fuel (machine.bounded (machine.output.bytes.size + n) refusal) =
        .failed (.io text) (moment.bounded (machine.output.bytes.size + n) refusal) ∧
      moment.output.bytes = machine.output.bytes ++
        (((moments fuel machine).take n).map (·.tape.current)).toArray
  /-- A run that leaves a machine behind has written the current cells of its moments. -/
  output_eq : ∀ fuel reached, (run fuel machine).state? = some reached →
    reached.output.bytes =
      machine.output.bytes ++ ((moments fuel machine).map (·.tape.current)).toArray
  /-- With more fuel a run writes first what it writes with less. -/
  moments_mono : ∀ fuel more, fuel ≤ more → moments fuel machine <+: moments more machine

/-- A walk whose items write in their moments is only cut short by a bounded output. -/
theorem CutsShort.of_walk {ι : Type} {fetch : Config → Option ι}
    {act : ι → Config → Outcome Config} {momentsOf : ι → Config → List Config}
    (hfetch : ∀ config room refusal, fetch (config.bounded room refusal) = fetch config)
    (hact : ∀ item config, config.machine.output.limit = none →
      WritesIn (momentsOf item config) (act item) config)
    {machine : Machine} (hfree : machine.output.limit = none) (n : Nat) {refusal : Refusal}
    {text : String} (htext : refusal.text? = some text) :
    CutsShort (fun fuel machine => (walk fetch act fuel ⟨0, machine⟩).map (·.machine))
      (fun fuel machine =>
        (momentsOn fetch momentsOf (trail fetch act fuel ⟨0, machine⟩)).map (·.machine))
      machine n refusal text := by
  have hwrites : ∀ fuel, WritesIn
      (momentsOn fetch momentsOf (trail fetch act fuel ⟨0, machine⟩)) (walk fetch act fuel)
      ⟨0, machine⟩ := fun fuel => WritesIn.walk hfetch hact fuel hfree
  -- the bounded run is the other one, cut off at the first byte that it has no room for
  have hbounded : ∀ fuel, walk fetch act fuel
      ⟨0, machine.bounded (machine.output.bytes.size + n) refusal⟩ =
        (walk fetch act fuel ⟨0, machine⟩).cutAfter n (machine.output.bytes.size + n) refusal text
          (momentsOn fetch momentsOf (trail fetch act fuel ⟨0, machine⟩)) := by
    intro fuel
    have heq := (hwrites fuel).bounded_eq htext (Nat.le_add_right machine.output.bytes.size n)
    rwa [Nat.add_sub_cancel_left] at heq
  refine ⟨?_, ?_, ?_, ?_⟩
  · intro fuel hle
    rw [List.length_map] at hle
    simp only [hbounded, Outcome.cutAfter, List.getElem?_eq_none hle]
    cases walk fetch act fuel ⟨0, machine⟩ <;> rfl
  · intro fuel hlt
    rw [List.length_map] at hlt
    have hget := List.getElem?_eq_getElem hlt
    refine ⟨_, by rw [List.getElem?_map, hget, Option.map_some], ?_, ?_⟩
    · simp only [hbounded, Outcome.cutAfter, hget, Outcome.map_failed]
      rfl
    · rw [(hwrites fuel).moment_eq n _ hget, ← List.map_take, List.map_map]
      rfl
  · intro fuel reached hreached
    rw [Outcome.state?_map, Option.map_eq_some_iff] at hreached
    obtain ⟨config, hconfig, rfl⟩ := hreached
    rw [(hwrites fuel).output_eq config hconfig, List.map_map]
    rfl
  · intro fuel more hle
    obtain ⟨later, hlater⟩ := trail_prefix fetch act hle ⟨0, machine⟩
    rw [← hlater, momentsOn, momentsOn, List.flatMap_append, List.map_append]
    exact List.prefix_append ..

/-- A bounded output only cuts a run short. On any tape and input, with an output that takes `n`
more bytes and then fails or takes nothing, each interpreter does what it does with an output that
takes all bytes, up to the moment in which it writes the byte after these; there it stops with an
input/output error, also in the middle of a fused write. -/
theorem output_cuts_short (machine : Machine) (hfree : machine.output.limit = none) (n : Nat)
    {refusal : Refusal} {text : String} (htext : refusal.text? = some text) :
    (∀ program, CutsShort (Scanning.run program) (Scanning.moments program) machine n refusal
      text) ∧
    (∀ program table, CutsShort (Tabled.runWith program table)
      (Tabled.momentsWith program table) machine n refusal text) ∧
    (∀ program, CutsShort (Tabled.run program) (Tabled.moments program) machine n refusal text) ∧
    ∀ ops, CutsShort (Bytecode.run ops) (Bytecode.moments ops) machine n refusal text := by
  have hwith : ∀ program table, CutsShort (Tabled.runWith program table)
      (Tabled.momentsWith program table) machine n refusal text := fun program table =>
    CutsShort.of_walk (fun _ _ _ => rfl) (fun instr _ => Tabled.writesIn_step instr) hfree n htext
  refine ⟨fun program => ?_, hwith, fun program => ?_, fun ops => ?_⟩
  · exact CutsShort.of_walk (fun _ _ _ => rfl) (fun instr _ => Scanning.writesIn_step instr) hfree
      n htext
  · cases hresolve : program.resolveJumps with
    | ok table =>
      have hrun : Tabled.run program = Tabled.runWith program table := by
        funext fuel machine
        rw [Tabled.run, hresolve]
      have hmoments : Tabled.moments program = Tabled.momentsWith program table := by
        funext fuel machine
        rw [Tabled.moments, hresolve]
      rw [hrun, hmoments]
      exact hwith program table
    -- a program that is not begun leaves the machine as it is, and writes nothing
    | error error =>
      have hrun : Tabled.run program = fun _ machine => .failed error machine := by
        funext fuel machine
        rw [Tabled.run, hresolve]
      have hmoments : Tabled.moments program = fun _ _ => [] := by
        funext fuel machine
        rw [Tabled.moments, hresolve]
      rw [hrun, hmoments]
      exact ⟨fun _ _ => rfl, fun _ hlt => absurd hlt (by simp),
        fun _ reached hreached => by simp_all [Outcome.state?], fun _ _ _ => List.prefix_rfl⟩
  · exact CutsShort.of_walk (fun _ _ _ => rfl) (fun op _ => Bytecode.writesIn_step op) hfree n
      htext

/-- A fused write of three bytes to an output that takes two is cut off before the third. -/
theorem output_cuts_short_writeThree :
    Bytecode.run #[.write 3] 1 (Machine.bounded 2 (.fails "full")
        ⟨.blank, .ofBytes [7], .unlimited⟩) =
      .failed (.io "full") ⟨.blank, .ofBytes [7], ⟨#[0, 0], some (2, .fails "full")⟩⟩ := by
  have hcurrent : Tape.blank.current = 0 := by simp [Tape.current, Tape.blank]
  have hmoments : Bytecode.moments #[.write 3] 1 ⟨.blank, .ofBytes [7], .unlimited⟩ =
      [⟨.blank, .ofBytes [7], ⟨#[], none⟩⟩, ⟨.blank, .ofBytes [7], ⟨#[0], none⟩⟩,
        ⟨.blank, .ofBytes [7], ⟨#[0, 0], none⟩⟩] := by
    simp [Bytecode.moments, momentsOn, Bytecode.trailFrom, trail, Bytecode.step, Config.act,
      Op.act, Outcome.iterate, Machine.write, Output.write, Output.unlimited, Op.moments,
      Outcome.starts, Config.within, hcurrent]
  obtain ⟨-, -, -, hops⟩ := output_cuts_short ⟨.blank, .ofBytes [7], .unlimited⟩ rfl 2
    (show (Refusal.fails "full").text? = some "full" from rfl)
  obtain ⟨moment, hget, hrun, -⟩ := (hops #[.write 3]).beyond_eq 1 (by simp [hmoments])
  rw [hmoments] at hget
  obtain rfl : _ = moment := Option.some.inj hget
  exact hrun

end TapeLang

import TapeLang.Proofs.Compilation
import TapeLang.Proofs.Idioms
import TapeLang.Proofs.Thrift

/-!
# Executions of reduced blocks

A block of ops and the block in which loops are replaced are executed side by side. One op of the
reduced block answers to all the rounds of a loop of the other, whatever their number.

* `Block.exec_reduce`: an execution of a block is followed by one of the reduced block.
* `Block.tracked_reduce`: the execution of the reduced block is also the thriftier one.
* `Block.exec_of_exec_reduce`: an execution of the reduced block is followed back, provided that
  each loop that adds or subtracts a constant reaches zero; `Block.Screens` says of a condition on
  configurations that it asks for exactly this.
-/

namespace TapeLang

/-- A body that has a replacement has no replaced loop in it. -/
theorem not_specialized_of_specialize {strict : Bool} {body : List Op} {replacement : Op}
    (h : specialize strict body = some replacement) : ∀ op ∈ body, op.isSpecialized = false := by
  unfold specialize at h
  split at h <;> simp_all [Op.isSpecialized]

/-- A body that has a replacement neither reads nor writes. -/
theorem quiet_of_specialize {strict : Bool} {body : List Op} {replacement : Op}
    (h : specialize strict body = some replacement) : ∀ op ∈ body, op.kind.Quiet := by
  unfold specialize at h
  split at h <;> simp_all [Op.kind, Op.Kind.Quiet]

/-- How the outcomes of a block and of the reduced block agree: both come to their end with the
same machine, or the same error stops both alike at an op of the reduced block. -/
def Agrees (ops : Array Op) : Outcome Config → Outcome Config → Prop
  | .done plain, .done special => plain.machine = special.machine
  | .failed error plain, .failed error' special =>
    error = error' ∧ ∃ op, ops[special.position]? = some op ∧
      op.StopsAlike error plain.machine special.machine
  | _, _ => False

/-- Outcomes that differ at most in the error and in where it leaves the machine. -/
def EndsAlike : Outcome Config → Outcome Config → Prop
  | .done plain, .done special => plain.machine = special.machine
  | .failed .., .failed .. => True
  | _, _ => False

namespace Block

variable {options : CompileOptions} {good : Config → Prop} {ops : Array Op} {index start : Nat}
  {block body rest : Block Op} {replacement : Op} {machine next stopped : Machine} {error : Error}
  {visited : List Config} {outcome : Outcome Config}

/-- A condition on the configurations of a reduced block that is laid out from an index on: at the
op that replaces a loop it holds exactly where the loop reaches zero, if it adds or subtracts a
constant, and everywhere else it always holds. -/
def Screens (options : CompileOptions) (good : Config → Prop) : Nat → Block Op → Prop
  | _, done => True
  | index, op _ rest => (∀ machine, good ⟨index, machine⟩) ∧ rest.Screens options good (index + 1)
  | index, loop body rest =>
    match (body.reduce options).replacement? options with
    | some _ =>
      (∀ items machine, body = items.foldr .op .done →
        (good ⟨index, machine⟩ ↔ Op.Clears items machine)) ∧ rest.Screens options good (index + 1)
    | none =>
      (∀ position machine, Tests index (body.reduce options) position →
        good ⟨position, machine⟩) ∧ body.Screens options good (index + 1) ∧
        rest.Screens options good (index + (body.reduce options).size + 2)

/-- A block without loops is made of its items. -/
theorem eq_foldr_of_straight? {α : Type} {block : Block α} {items : List α}
    (h : block.straight? = some items) : block = items.foldr .op .done := by
  induction block generalizing items with
  | done =>
    cases h
    rfl
  | op item rest ih =>
    obtain ⟨later, hlater, rfl⟩ := Option.map_eq_some_iff.mp h
    rw [List.foldr_cons, ← ih hlater]
  | loop body rest => cases h

/-- Items that are put into a block are the items of the block. -/
theorem straight?_foldr {α : Type} (items : List α) :
    (items.foldr Block.op .done).straight? = some items := by
  induction items with
  | nil => rfl
  | cons item items ih => rw [List.foldr_cons, straight?, ih, Option.map_some]

/-- Blocks without loops are equal if and only if their items are. -/
theorem foldr_op_eq_iff {α : Type} (items items' : List α) :
    items.foldr Block.op .done = items'.foldr .op .done ↔ items = items' := by
  constructor
  · intro h
    rw [← Option.some.injEq, ← straight?_foldr, h, straight?_foldr]
  · rintro rfl
    rfl

/-- A property of all items is a property of the block that they are put into. -/
theorem all_foldr {α : Type} {p : α → Prop} {items : List α} (h : ∀ item ∈ items, p item) :
    (items.foldr Block.op .done).All p := by
  induction items with
  | nil => trivial
  | cons item items ih =>
    obtain ⟨hitem, hitems⟩ := List.forall_mem_cons.mp h
    exact ⟨hitem, ih hitems⟩

/-- The items in front of a block are items of it. -/
theorem all_of_all_foldr {α : Type} {p : α → Prop} {items : List α} {rest : Block α}
    (h : (items.foldr .op rest).All p) : ∀ item ∈ items, p item := by
  induction items with
  | nil => simp
  | cons item items ih => exact List.forall_mem_cons.mpr ⟨h.1, ih h.2⟩

/-- A block with no specialized ops that is reduced to one without loops, none of them replaced, is
not changed. -/
theorem straight?_of_reduce {items : List Op} (h : (block.reduce options).straight? = some items)
    (hitems : ∀ op ∈ items, op.isSpecialized = false) : block.straight? = some items := by
  induction block generalizing items with
  | done => exact h
  | op item rest ih =>
    obtain ⟨later, hlater, rfl⟩ := Option.map_eq_some_iff.mp h
    rw [straight?, ih hlater fun op hmem => hitems op (List.mem_cons_of_mem _ hmem)]
    rfl
  | loop body rest =>
    cases hreplacement : (body.reduce options).replacement? options with
    | some replacement =>
      rw [reduce_loop_of_some hreplacement] at h
      obtain ⟨later, -, rfl⟩ := Option.map_eq_some_iff.mp h
      have hspecialized := isSpecialized_of_replacement? hreplacement
      simp [hitems replacement List.mem_cons_self] at hspecialized
    | none =>
      rw [reduce_loop_of_none hreplacement] at h
      cases h

/-- A loop is replaced only if its body is straight. -/
theorem exists_items_of_replacement?
    (h : (body.reduce options).replacement? options = some replacement) :
    ∃ items, body = items.foldr .op .done ∧
      specialize options.strictZeroing items = some replacement := by
  unfold replacement? at h
  split at h
  · obtain ⟨items, hitems, hspecialize⟩ := Option.bind_eq_some_iff.mp h
    have hstraight := straight?_of_reduce hitems (not_specialized_of_specialize hspecialize)
    exact ⟨items, eq_foldr_of_straight? hstraight, hspecialize⟩
  · cases h

/-- The op that replaces a loop stands for it. -/
theorem exists_replaces (hall : body.All Op.Elementary)
    (h : (body.reduce options).replacement? options = some replacement) :
    ∃ items, body = items.foldr .op .done ∧ Replaces replacement items := by
  obtain ⟨items, rfl, hspecialize⟩ := exists_items_of_replacement? h
  exact ⟨items, rfl, replaces_of_specialize (all_of_all_foldr hall) hspecialize⟩

/-- An elementary op is stopped in the same state with itself. -/
theorem stopsAlike_of_elementary {op : Op} (h : op.Elementary) :
    op.StopsAlike error stopped stopped := by
  have hspecialized := h.not_specialized
  cases op <;> first | rfl | cases hspecialized

/-- What an execution of straight items comes to is what they do one after another. -/
theorem actAll_of_exec {items : List Op} {config : Config}
    (h : Exec Op.act start (items.foldr .op .done) config visited outcome) :
    actAll Op.act items config.machine = outcome.map (·.machine) := by
  obtain ⟨position, machine⟩ := config
  have hmeets := h.meets
  obtain rfl : position = start := by
    cases items <;> exact hmeets
  rcases of_exec_foldr h with ⟨next, before, after, rfl, -, hitems, hafter⟩ |
    ⟨error, stopped, position, -, -, hitems, rfl⟩
  · cases hafter
    exact hitems
  · exact hitems

/-- The condition on a loop that is replaced. -/
theorem screens_loop_of_some (h : (body.reduce options).replacement? options = some replacement)
    (hscreens : (loop body rest).Screens options good index) :
    (∀ items machine, body = items.foldr .op .done →
      (good ⟨index, machine⟩ ↔ Op.Clears items machine)) ∧
      rest.Screens options good (index + 1) := by
  simpa only [Screens, h] using hscreens

/-- The condition on a loop that is not replaced. -/
theorem screens_loop_of_none (h : (body.reduce options).replacement? options = none)
    (hscreens : (loop body rest).Screens options good index) :
    (∀ position machine, Tests index (body.reduce options) position →
      good ⟨position, machine⟩) ∧ body.Screens options good (index + 1) ∧
      rest.Screens options good (index + (body.reduce options).size + 2) := by
  simpa only [Screens, h] using hscreens

/-- What a block does with a machine is followed by the reduced block: if the condition is the one
that `Screens` describes, the reduced block goes only through configurations that satisfy it, and
ends with an outcome that agrees. -/
def Followed (options : CompileOptions) (good : Config → Prop) (ops : Array Op) (block : Block Op)
    (machine : Machine) (outcome : Outcome Config) : Prop :=
  ∀ index position, block.Screens options good index → (block.reduce options).LaidOut ops index →
    (block.reduce options).Meets index ⟨position, machine⟩ →
    ∃ visited' outcome', Exec Op.act index (block.reduce options) ⟨position, machine⟩ visited'
      outcome' ∧ (∀ shown ∈ visited', good shown) ∧ Agrees ops outcome outcome'

/-- Where a block begins with a loop, two executions of it at different places both stand at the
loop start, or both at the loop end. -/
def SameSide (start position index position' : Nat) : Block Op → Prop
  | loop _ _ => position = start ↔ position' = index
  | _ => True

/-- Executions that both begin at the beginning of a block stand on the same side. -/
theorem sameSide_start (start index : Nat) (block : Block Op) :
    SameSide start start index index block := by
  cases block with
  | done => trivial
  | op item rest => trivial
  | loop body rest => exact iff_of_true rfl rfl

/-- An execution of a block is followed by one of the reduced block. If the block is laid out in
`plain`, that execution is the thriftier one of the two. -/
def Tracked (options : CompileOptions) (good : Config → Prop) (plain ops : Array Op) (start : Nat)
    (block : Block Op) (config : Config) (visited : List Config) (outcome : Outcome Config) :
    Prop :=
  ∀ index position, block.Screens options good index → (block.reduce options).LaidOut ops index →
    (block.reduce options).Meets index ⟨position, config.machine⟩ →
    ∃ visited' outcome', Exec Op.act index (block.reduce options) ⟨position, config.machine⟩
      visited' outcome' ∧ (∀ shown ∈ visited', good shown) ∧ Agrees ops outcome outcome' ∧
      (block.LaidOut plain start →
        SameSide start config.position index position (block.reduce options) →
        Thrifty (Bytecode.kindsOf plain visited) (Bytecode.kindsOf ops visited'))

/-- At the two places where a loop is tested there are its jumps. -/
theorem exists_jump_of_tests {position : Nat} (hlaid : (loop body rest).LaidOut ops start)
    (htest : Tests start body position) : ∃ op, ops[position]? = some op ∧
      op.kind = if position = start then .jumpIfZero else .jumpIfNotZero := by
  rcases htest with rfl | rfl
  · exact ⟨_, hlaid.1, by rw [if_pos rfl, Op.kind]⟩
  · exact ⟨_, hlaid.2.2.1, by rw [if_neg (by omega), Op.kind]⟩

/-- The jumps of a loop neither read nor write. -/
theorem exists_quiet_of_tests {position : Nat} (hlaid : (loop body rest).LaidOut ops start)
    (htest : Tests start body position) : ∃ op, ops[position]? = some op ∧ op.kind.Quiet := by
  obtain ⟨op, hop, hkind⟩ := exists_jump_of_tests hlaid htest
  refine ⟨op, hop, ?_⟩
  rw [hkind]
  split <;> simp [Op.Kind.Quiet]

/-- Loops that are tested on the same side execute jumps of the same kind. -/
theorem thrifty_of_tests {plain : Array Op} {body' rest' : Block Op} {position position' : Nat}
    {machine' : Machine} {visited' : List Config}
    (hlaid : (loop body rest).LaidOut plain start)
    (hlaid' : (loop body' rest').LaidOut ops index) (htest : Tests start body position)
    (htest' : Tests index body' position')
    (hside : SameSide start position index position' (loop body' rest'))
    (h : Thrifty (Bytecode.kindsOf plain visited) (Bytecode.kindsOf ops visited')) :
    Thrifty (Bytecode.kindsOf plain (⟨position, machine⟩ :: visited))
      (Bytecode.kindsOf ops (⟨position', machine'⟩ :: visited')) := by
  obtain ⟨jump, hjump, hkind⟩ := exists_jump_of_tests hlaid htest
  obtain ⟨jump', hjump', hkind'⟩ := exists_jump_of_tests hlaid' htest'
  have hsame : jump'.kind = jump.kind := by
    rw [hkind, hkind']
    exact if_congr hside.symm rfl rfl
  rw [Bytecode.kindsOf_cons_of_get hjump, Bytecode.kindsOf_cons_of_get hjump', hsame]
  exact h.cons _

/-- An execution of ops that neither read nor write, and of loops over them, neither reads nor
writes. -/
theorem quiet_of_exec {config : Config} (h : Exec Op.act start block config visited outcome)
    (hlaid : block.LaidOut ops start) (hquiet : block.All fun op => op.kind.Quiet) :
    ∀ kind ∈ Bytecode.kindsOf ops visited, kind.Quiet := by
  -- each configuration of the execution is at an op of the block or at the test of a loop
  induction h with
  | done => simp [Bytecode.kindsOf]
  | op _ _ ih =>
    rw [Bytecode.kindsOf_cons_of_get hlaid.1]
    exact List.forall_mem_cons.mpr ⟨hquiet.1, ih hlaid.2 hquiet.2⟩
  | opFails =>
    rw [Bytecode.kindsOf_cons_of_get hlaid.1]
    exact List.forall_mem_cons.mpr ⟨hquiet.1, by simp [Bytecode.kindsOf]⟩
  | leave htest _ _ ih =>
    obtain ⟨op, hop, hkind⟩ := exists_quiet_of_tests hlaid htest
    rw [Bytecode.kindsOf_cons_of_get hop]
    exact List.forall_mem_cons.mpr ⟨hkind, ih hlaid.2.2.2 hquiet.2⟩
  | round htest _ _ _ ihbody ihagain =>
    obtain ⟨op, hop, hkind⟩ := exists_quiet_of_tests hlaid htest
    rw [Bytecode.kindsOf_cons_of_get hop, Bytecode.kindsOf_append]
    refine List.forall_mem_cons.mpr ⟨hkind, List.forall_mem_append.mpr ⟨?_, ?_⟩⟩
    · exact ihbody hlaid.2.1 hquiet.1
    · exact ihagain hlaid hquiet
  | roundFails htest _ _ ih =>
    obtain ⟨op, hop, hkind⟩ := exists_quiet_of_tests hlaid htest
    rw [Bytecode.kindsOf_cons_of_get hop]
    exact List.forall_mem_cons.mpr ⟨hkind, ih hlaid.2.1 hquiet.1⟩

/-- The body of a loop that is replaced neither reads nor writes. -/
theorem all_quiet_of_replacement?
    (h : (body.reduce options).replacement? options = some replacement) :
    body.All fun op => op.kind.Quiet := by
  obtain ⟨items, rfl, hspecialize⟩ := exists_items_of_replacement? h
  exact all_foldr (quiet_of_specialize hspecialize)

variable {plain : Array Op}

/-- A loop that is left is left by the reduced block, or passed by the op that replaces it. -/
theorem tracked_leave {position : Nat} (hall : body.All Op.Elementary)
    (htest : Tests start body position) (hzero : machine.tape.current = 0)
    (hrest : Tracked options good plain ops (start + body.size + 2) rest
      ⟨start + body.size + 2, machine⟩ visited outcome) :
    Tracked options good plain ops start (loop body rest) ⟨position, machine⟩
      (⟨position, machine⟩ :: visited) outcome := by
  intro index position' hscreens hlaid hmeets
  cases hreplacement : (body.reduce options).replacement? options with
  | some replacement =>
    obtain ⟨hgood, hscreens'⟩ := screens_loop_of_some hreplacement hscreens
    rw [reduce_loop_of_some hreplacement] at hlaid hmeets ⊢
    obtain rfl : position' = index := hmeets
    obtain ⟨items, hbody, hreplaces⟩ := exists_replaces hall hreplacement
    obtain ⟨visited', outcome', hexec, hgood', hagrees, hthrifty⟩ :=
      hrest _ _ hscreens' hlaid.2 (meets_start _ _ _)
    refine ⟨_, outcome', .op (hreplaces.leave hzero) hexec, ?_, hagrees, fun hplain _ => ?_⟩
    · exact List.forall_mem_cons.mpr
        ⟨(hgood items machine hbody).mpr (Op.clears_of_current_eq hzero), hgood'⟩
    -- the one test of the loop is paid for by the op that replaces it
    · obtain ⟨jump, hjump, hquiet⟩ := exists_quiet_of_tests hplain htest
      rw [Bytecode.kindsOf_cons_of_get hjump, Bytecode.kindsOf_cons_of_get hlaid.1]
      exact (hthrifty hplain.2.2.2 (sameSide_start ..)).replace hquiet
        (isSpecialized_of_replacement? hreplacement)
  | none =>
    obtain ⟨hgood, -, hscreens'⟩ := screens_loop_of_none hreplacement hscreens
    rw [reduce_loop_of_none hreplacement] at hlaid hmeets ⊢
    obtain ⟨visited', outcome', hexec, hgood', hagrees, hthrifty⟩ :=
      hrest _ _ hscreens' hlaid.2.2.2 (meets_start _ _ _)
    refine ⟨_, outcome', .leave hmeets hzero hexec, ?_, hagrees, fun hplain hside => ?_⟩
    · exact List.forall_mem_cons.mpr ⟨hgood position' machine hmeets, hgood'⟩
    · exact thrifty_of_tests hplain hlaid htest hmeets hside
        (hthrifty hplain.2.2.2 (sameSide_start ..))

/-- A round of a loop is a round of the reduced block, or is part of what the op that replaces the
loop does. -/
theorem tracked_round {position : Nat} {next : Config} {inner : List Config}
    (hall : body.All Op.Elementary) (htest : Tests start body position)
    (hne : machine.tape.current ≠ 0)
    (hbody : Exec Op.act (start + 1) body ⟨start + 1, machine⟩ inner (.done next))
    (hinner : Tracked options good plain ops (start + 1) body ⟨start + 1, machine⟩ inner
      (.done next))
    (hagain : Tracked options good plain ops start (loop body rest) next visited outcome) :
    Tracked options good plain ops start (loop body rest) ⟨position, machine⟩
      (⟨position, machine⟩ :: (inner ++ visited)) outcome := by
  intro index position' hscreens hlaid hmeets
  have hagain' := fun position => hagain index position hscreens hlaid
  cases hreplacement : (body.reduce options).replacement? options with
  | some replacement =>
    obtain ⟨hgood, -⟩ := screens_loop_of_some hreplacement hscreens
    simp only [reduce_loop_of_some hreplacement] at hmeets hagain' ⊢
    obtain rfl : position' = index := hmeets
    have hadded : (loop body rest).LaidOut plain start →
        ∀ kind ∈ Bytecode.kindsOf plain (⟨position, machine⟩ :: inner), kind.Quiet := by
      intro hplain
      obtain ⟨jump, hjump, hquiet⟩ := exists_quiet_of_tests hplain htest
      rw [Bytecode.kindsOf_cons_of_get hjump]
      exact List.forall_mem_cons.mpr
        ⟨hquiet, quiet_of_exec hbody hplain.2.1 (all_quiet_of_replacement? hreplacement)⟩
    obtain ⟨items, rfl, hreplaces⟩ := exists_replaces hall hreplacement
    obtain ⟨visited', outcome', hexec, hgood', hagrees, hthrifty⟩ := hagain' position' rfl
    -- the op has done the whole loop already, so it is not carried out once more
    obtain ⟨hact, hclears⟩ := hreplaces.again hne (actAll_of_exec hbody)
    have hfirst : good ⟨position', machine⟩ ↔ good ⟨position', next.machine⟩ := by
      rw [hgood items _ rfl, hgood items _ rfl, hclears]
    cases hexec with
    | op hact' hexec' =>
      obtain ⟨hhead, htail⟩ := List.forall_mem_cons.mp hgood'
      refine ⟨_, outcome', .op (hact.trans hact') hexec',
        List.forall_mem_cons.mpr ⟨hfirst.mpr hhead, htail⟩, hagrees, fun hplain hside => ?_⟩
      rw [← List.cons_append, Bytecode.kindsOf_append]
      exact (hthrifty hplain hside).add (hadded hplain)
    | opFails hact' =>
      refine ⟨_, _, .opFails (hact.trans hact'),
        List.forall_mem_singleton.mpr (hfirst.mpr (List.forall_mem_singleton.mp hgood')), hagrees,
        fun hplain hside => ?_⟩
      rw [← List.cons_append, Bytecode.kindsOf_append]
      exact (hthrifty hplain hside).add (hadded hplain)
  | none =>
    obtain ⟨hgood, hscreens', -⟩ := screens_loop_of_none hreplacement hscreens
    simp only [reduce_loop_of_none hreplacement] at hlaid hmeets hagain' ⊢
    obtain ⟨inner', reached, hexec, hgood', hreached, hthrifty⟩ :=
      hinner _ _ hscreens' hlaid.2.1 (meets_start _ _ _)
    cases reached with
    | done next' =>
      obtain ⟨middle, machine'⟩ := next'
      obtain rfl : next.machine = machine' := hreached
      obtain ⟨visited', outcome', hexec', hgood'', hagrees, hthrifty'⟩ :=
        hagain' middle hexec.tests
      refine ⟨_, outcome', .round hmeets hne hexec hexec', ?_, hagrees, fun hplain hside => ?_⟩
      · refine List.forall_mem_cons.mpr ⟨hgood position' machine hmeets, ?_⟩
        exact List.forall_mem_append.mpr ⟨hgood', hgood''⟩
      · -- after the round both stand at the loop end
        have hends : SameSide start next.position index middle
            (loop (body.reduce options) (rest.reduce options)) := by
          have hend := hbody.position_eq
          have hend' := hexec.position_eq
          exact iff_of_false (by omega) (by dsimp only at hend'; omega)
        refine thrifty_of_tests hplain hlaid htest hmeets hside ?_
        rw [Bytecode.kindsOf_append, Bytecode.kindsOf_append]
        exact (hthrifty hplain.2.1 (sameSide_start ..)).append (hthrifty' hplain hends)
    | failed error stopped => exact hreached.elim
    | unfinished => exact hreached.elim

/-- Where a round of a loop fails, a round of the reduced block fails, or the op that replaces the
loop. -/
theorem tracked_roundFails {position : Nat} {stopped : Config} {inner : List Config}
    (hall : body.All Op.Elementary) (htest : Tests start body position)
    (hne : machine.tape.current ≠ 0)
    (hbody : Exec Op.act (start + 1) body ⟨start + 1, machine⟩ inner (.failed error stopped))
    (hinner : Tracked options good plain ops (start + 1) body ⟨start + 1, machine⟩ inner
      (.failed error stopped)) :
    Tracked options good plain ops start (loop body rest) ⟨position, machine⟩
      (⟨position, machine⟩ :: inner) (.failed error stopped) := by
  intro index position' hscreens hlaid hmeets
  cases hreplacement : (body.reduce options).replacement? options with
  | some replacement =>
    obtain ⟨hgood, -⟩ := screens_loop_of_some hreplacement hscreens
    rw [reduce_loop_of_some hreplacement] at hlaid hmeets ⊢
    obtain rfl : position' = index := hmeets
    have hquiet := all_quiet_of_replacement? hreplacement
    obtain ⟨items, rfl, hreplaces⟩ := exists_replaces hall hreplacement
    obtain ⟨hclears, stopped', hact, halike⟩ := hreplaces.fails hne (actAll_of_exec hbody)
    refine ⟨_, _, .opFails hact, ?_, ⟨rfl, replacement, hlaid.1, halike⟩, fun hplain _ => ?_⟩
    · exact List.forall_mem_singleton.mpr ((hgood items _ rfl).mpr hclears)
    -- the test and all that the round has done are paid for by the op that replaces the loop
    · obtain ⟨jump, hjump, hjumpQuiet⟩ := exists_quiet_of_tests hplain htest
      rw [Bytecode.kindsOf_cons_of_get hjump, Bytecode.kindsOf_cons_of_get hlaid.1]
      exact (Thrifty.of_quiet (quiet_of_exec hbody hplain.2.1 hquiet)).replace hjumpQuiet
        (isSpecialized_of_replacement? hreplacement)
  | none =>
    obtain ⟨hgood, hscreens', -⟩ := screens_loop_of_none hreplacement hscreens
    rw [reduce_loop_of_none hreplacement] at hlaid hmeets ⊢
    obtain ⟨inner', reached, hexec, hgood', hreached, hthrifty⟩ :=
      hinner _ _ hscreens' hlaid.2.1 (meets_start _ _ _)
    cases reached with
    | failed error' stopped' =>
      refine ⟨_, _, .roundFails hmeets hne hexec, ?_, hreached, fun hplain hside => ?_⟩
      · exact List.forall_mem_cons.mpr ⟨hgood position' machine hmeets, hgood'⟩
      · exact thrifty_of_tests hplain hlaid htest hmeets hside
          (hthrifty hplain.2.1 (sameSide_start ..))
    | done next' => exact hreached.elim
    | unfinished => exact hreached.elim

/-- The reduced block does what a block of elementary ops does, also where that fails, and it is
the thriftier one. -/
theorem tracked_reduce {config : Config} (plain : Array Op)
    (h : Exec Op.act start block config visited outcome) (hall : block.All Op.Elementary) :
    Tracked options good plain ops start block config visited outcome := by
  -- an elementary op stays what it is; what becomes of loops is in the lemmas for their three ways
  induction h with
  | done =>
    intro index position _ _ hmeets
    obtain rfl : position = index := hmeets
    exact ⟨[], _, .done, by simp, rfl, fun _ _ => Thrifty.refl []⟩
  | @op _ item rest machine next _ _ hact _ ih =>
    intro index position hscreens hlaid hmeets
    obtain rfl : position = index := hmeets
    obtain ⟨visited', outcome', hexec, hgood, hagrees, hthrifty⟩ :=
      ih hall.2 _ _ hscreens.2 hlaid.2 (meets_start _ _ _)
    refine ⟨_, outcome', .op hact hexec, ?_, hagrees, fun hplain _ => ?_⟩
    · exact List.forall_mem_cons.mpr ⟨hscreens.1 machine, hgood⟩
    · rw [Bytecode.kindsOf_cons_of_get hplain.1, Bytecode.kindsOf_cons_of_get hlaid.1]
      exact (hthrifty hplain.2 (sameSide_start ..)).cons _
  | @opFails _ item rest machine stopped error hact =>
    intro index position hscreens hlaid hmeets
    obtain rfl : position = index := hmeets
    refine ⟨_, _, .opFails hact, ?_, ⟨rfl, item, hlaid.1, stopsAlike_of_elementary hall.1⟩,
      fun hplain _ => ?_⟩
    · exact List.forall_mem_singleton.mpr (hscreens.1 machine)
    · rw [Bytecode.kindsOf_cons_of_get hplain.1, Bytecode.kindsOf_cons_of_get hlaid.1]
      exact (Thrifty.refl []).cons _
  | leave htest hzero _ ih => exact tracked_leave hall.1 htest hzero (ih hall.2)
  | round htest hne hbody _ ihbody ihagain =>
    exact tracked_round hall.1 htest hne hbody (ihbody hall.1) (ihagain hall)
  | roundFails htest hne hbody ih =>
    exact tracked_roundFails hall.1 htest hne hbody (ih hall.1)

/-- The reduced block does what a block of elementary ops does, also where that fails. -/
theorem exec_reduce {config : Config} (h : Exec Op.act start block config visited outcome)
    (hall : block.All Op.Elementary) :
    Followed options good ops block config.machine outcome := by
  intro index position hscreens hlaid hmeets
  obtain ⟨visited', outcome', hexec, hgood, hagrees, -⟩ :=
    tracked_reduce #[] h hall index position hscreens hlaid hmeets
  exact ⟨visited', outcome', hexec, hgood, hagrees⟩

/-- A loop that settles is executed to its end and goes on behind it, if the op that stands for it
comes to its end. -/
theorem exec_loop_of_done {items : List Op} {position : Nat}
    (hsettles : Settles (actAll Op.act items) machine) (hreplaces : Replaces replacement items)
    (htest : Tests start (items.foldr .op .done) position)
    (hact : replacement.act machine = .done next)
    (hrest : Exec Op.act (start + items.length + 2) rest ⟨start + items.length + 2, next⟩ visited
      outcome) :
    ∃ visited', Exec Op.act start (.loop (items.foldr .op .done) rest) ⟨position, machine⟩ visited'
      outcome := by
  have hsize : (items.foldr Block.op .done).size = items.length := by
    rw [size_foldr_op, size, Nat.add_zero]
  induction hsettles generalizing position with
  | leave hzero =>
    rw [hreplaces.leave hzero, Outcome.done.injEq] at hact
    subst hact
    exact ⟨_, .leave htest hzero (by rwa [hsize])⟩
  | again hne hround _ ih =>
    obtain ⟨hact', -⟩ := hreplaces.again hne hround
    obtain ⟨before, -, hbody⟩ := exec_foldr_of_done (start + 1) hround .done
    obtain ⟨visited', hagain⟩ := ih hbody.tests (hact'.symm.trans hact)
    exact ⟨_, .round htest hne hbody hagain⟩
  | fails hne hround =>
    obtain ⟨-, stopped', hfailed, -⟩ := hreplaces.fails hne hround
    rw [hfailed] at hact
    cases hact

/-- A loop that settles fails if the op that stands for it does. -/
theorem exec_loop_of_failed (rest : Block Op) {items : List Op} {position : Nat}
    (hsettles : Settles (actAll Op.act items) machine) (hreplaces : Replaces replacement items)
    (htest : Tests start (items.foldr .op .done) position)
    (hact : replacement.act machine = .failed error stopped) :
    ∃ visited' error' stopped', Exec Op.act start (.loop (items.foldr .op .done) rest)
      ⟨position, machine⟩ visited' (.failed error' stopped') := by
  induction hsettles generalizing position with
  | leave hzero =>
    rw [hreplaces.leave hzero] at hact
    cases hact
  | again hne hround _ ih =>
    obtain ⟨hact', -⟩ := hreplaces.again hne hround
    obtain ⟨before, -, hbody⟩ := exec_foldr_of_done (start + 1) hround .done
    obtain ⟨visited', error', stopped', hagain⟩ := ih hbody.tests (hact'.symm.trans hact)
    exact ⟨_, _, _, .round htest hne hbody hagain⟩
  | fails hne hround =>
    obtain ⟨inner, position', -, -, -, hbody⟩ := exec_foldr_of_failed (start + 1) hround
    exact ⟨_, _, _, .roundFails htest hne hbody⟩

/-- Only the empty block is reduced to the empty block. -/
theorem eq_done_of_reduce (h : block.reduce options = .done) : block = .done := by
  cases block with
  | done => rfl
  | op item rest => cases h
  | loop body rest =>
    cases hreplacement : (body.reduce options).replacement? options with
    | some replacement =>
      rw [reduce_loop_of_some hreplacement] at h
      cases h
    | none =>
      rw [reduce_loop_of_none hreplacement] at h
      cases h

/-- An op of a reduced block was there before, or it replaces a loop. -/
theorem eq_op_or_loop_of_reduce {item : Op} {rest' : Block Op}
    (h : block.reduce options = .op item rest') :
    (∃ rest, block = .op item rest ∧ rest.reduce options = rest') ∨
    ∃ body rest, block = .loop body rest ∧
      (body.reduce options).replacement? options = some item ∧ rest.reduce options = rest' := by
  cases block with
  | done => cases h
  | op item rest =>
    cases h
    exact .inl ⟨rest, rfl, rfl⟩
  | loop body rest =>
    cases hreplacement : (body.reduce options).replacement? options with
    | some replacement =>
      rw [reduce_loop_of_some hreplacement] at h
      cases h
      exact .inr ⟨body, rest, rfl, hreplacement, rfl⟩
    | none =>
      rw [reduce_loop_of_none hreplacement] at h
      cases h

/-- A loop of a reduced block was there before. -/
theorem eq_loop_of_reduce {body' rest' : Block Op}
    (h : block.reduce options = .loop body' rest') :
    ∃ body rest, block = .loop body rest ∧
      (body.reduce options).replacement? options = none ∧ body.reduce options = body' ∧
      rest.reduce options = rest' := by
  cases block with
  | done => cases h
  | op item rest => cases h
  | loop body rest =>
    cases hreplacement : (body.reduce options).replacement? options with
    | some replacement =>
      rw [reduce_loop_of_some hreplacement] at h
      cases h
    | none =>
      rw [reduce_loop_of_none hreplacement] at h
      cases h
      exact ⟨body, rest, rfl, hreplacement, rfl, rfl⟩

/-- A block of elementary ops ends as the reduced block does, provided that the reduced block goes
only through configurations from which each loop that adds or subtracts a constant reaches zero. -/
theorem exec_of_exec_reduce {reduced : Block Op} {config : Config}
    (h : Exec Op.act index reduced config visited outcome)
    (hreduced : block.reduce options = reduced) (hall : block.All Op.Elementary)
    (hscreens : block.Screens options good index) (hgood : ∀ shown ∈ visited, good shown)
    (position : Nat) (hmeets : block.Meets start ⟨position, config.machine⟩) :
    ∃ visited' outcome', Exec Op.act start block ⟨position, config.machine⟩ visited' outcome' ∧
      EndsAlike outcome' outcome := by
  -- the execution of the reduced block is followed, and the other one may stand at either end of
  -- a loop when it begins
  induction h generalizing block start position with
  | done =>
    obtain rfl := eq_done_of_reduce hreduced
    obtain rfl : position = start := hmeets
    exact ⟨[], _, .done, rfl⟩
  | @op index item _ machine next _ outcome hact _ ih =>
    obtain ⟨hfirst, hgood'⟩ := List.forall_mem_cons.mp hgood
    rcases eq_op_or_loop_of_reduce hreduced with
      ⟨rest, rfl, hrest⟩ | ⟨body, rest, rfl, hreplacement, hrest⟩
    · obtain rfl : position = start := hmeets
      obtain ⟨visited', outcome', hexec, halike⟩ :=
        ih hrest hall.2 hscreens.2 hgood' _ (meets_start (position + 1) _ _)
      exact ⟨_, outcome', .op hact hexec, halike⟩
    -- the op stands for a loop, whose rounds reach zero because the configuration is a good one
    · obtain ⟨hscreen, hscreens'⟩ := screens_loop_of_some hreplacement hscreens
      obtain ⟨items, rfl, hreplaces⟩ := exists_replaces hall.1 hreplacement
      have hsettles := hreplaces.settles (by simp [hact, Outcome.Terminates])
        ((hscreen items machine rfl).mp hfirst)
      obtain ⟨visited', outcome', hexec, halike⟩ :=
        ih hrest hall.2 hscreens' hgood' _ (meets_start (start + items.length + 2) _ _)
      obtain ⟨visited'', hloop⟩ := exec_loop_of_done hsettles hreplaces hmeets hact hexec
      exact ⟨visited'', outcome', hloop, halike⟩
  | @opFails index item _ machine stopped error hact =>
    have hfirst := List.forall_mem_singleton.mp hgood
    rcases eq_op_or_loop_of_reduce hreduced with
      ⟨rest, rfl, hrest⟩ | ⟨body, rest, rfl, hreplacement, hrest⟩
    · obtain rfl : position = start := hmeets
      exact ⟨_, _, .opFails hact, trivial⟩
    · obtain ⟨hscreen, -⟩ := screens_loop_of_some hreplacement hscreens
      obtain ⟨items, rfl, hreplaces⟩ := exists_replaces hall.1 hreplacement
      have hsettles := hreplaces.settles (by simp [hact, Outcome.Terminates])
        ((hscreen items machine rfl).mp hfirst)
      obtain ⟨visited', error', stopped', hloop⟩ :=
        exec_loop_of_failed rest hsettles hreplaces hmeets hact
      exact ⟨visited', _, hloop, trivial⟩
  | leave _ hzero _ ih =>
    obtain ⟨-, hgood'⟩ := List.forall_mem_cons.mp hgood
    obtain ⟨body, rest, rfl, hreplacement, rfl, hrest⟩ := eq_loop_of_reduce hreduced
    obtain ⟨-, -, hscreens'⟩ := screens_loop_of_none hreplacement hscreens
    obtain ⟨visited', outcome', hexec, halike⟩ :=
      ih hrest hall.2 hscreens' hgood' _ (meets_start (start + body.size + 2) _ _)
    exact ⟨_, outcome', .leave hmeets hzero hexec, halike⟩
  | round _ hne _ _ ihbody ihagain =>
    obtain ⟨-, hgood'⟩ := List.forall_mem_cons.mp hgood
    obtain ⟨hgoodbody, hgoodagain⟩ := List.forall_mem_append.mp hgood'
    obtain ⟨body, rest, rfl, hreplacement, hbody, -⟩ := eq_loop_of_reduce hreduced
    obtain ⟨-, hscreens', -⟩ := screens_loop_of_none hreplacement hscreens
    obtain ⟨inner, reached, hinner, hreached⟩ :=
      ihbody hbody hall.1 hscreens' hgoodbody _ (meets_start (start + 1) _ _)
    cases reached with
    | done next' =>
      obtain ⟨position', machine'⟩ := next'
      obtain rfl := hreached
      obtain ⟨visited', outcome', hexec, halike⟩ :=
        ihagain hreduced hall hscreens hgoodagain position' hinner.tests
      exact ⟨_, outcome', .round hmeets hne hinner hexec, halike⟩
    | failed error stopped => exact hreached.elim
    | unfinished => exact hreached.elim
  | roundFails _ hne _ ih =>
    obtain ⟨-, hgood'⟩ := List.forall_mem_cons.mp hgood
    obtain ⟨body, rest, rfl, hreplacement, hbody, -⟩ := eq_loop_of_reduce hreduced
    obtain ⟨-, hscreens', -⟩ := screens_loop_of_none hreplacement hscreens
    obtain ⟨inner, reached, hinner, hreached⟩ :=
      ih hbody hall.1 hscreens' hgood' _ (meets_start (start + 1) _ _)
    cases reached with
    | done next' => exact hreached.elim
    | failed error' stopped' => exact ⟨_, _, .roundFails hmeets hne hinner, trivial⟩
    | unfinished => exact hreached.elim

end Block

end TapeLang

import TapeLang.Block
import TapeLang.Interpreter.Config
import TapeLang.Proofs.Walks

/-!
# Structured execution

A machine that jumps from position to position and a machine that follows the nesting of loops do
the same, provided that the jumps lead where the nesting says. `Block.Exec` is the execution of a
block that is laid out from some position on, and `Block.Follows` says that a machine takes the
steps of such a block.

* `Block.walks_append_of_exec` and `Block.exec_of_walks`: a run of a machine that follows a block
  is an execution of the block, and what comes after it.
* `Block.walks_iff_exec`: the runs of a machine that follows a whole program are the executions of
  its block.
* `Block.of_exec_foldr`: items at the beginning of a block are done one after another.
-/

namespace TapeLang

variable {α : Type}

namespace Block

/-- All items of a block have a property. -/
def All (p : α → Prop) : Block α → Prop
  | done => True
  | op item rest => p item ∧ rest.All p
  | loop body rest => body.All p ∧ rest.All p

/-- What follows from a property of all items is a property of all items. -/
theorem All.imp {p q : α → Prop} {block : Block α} (h : block.All p)
    (hpq : ∀ item, p item → q item) : block.All q := by
  induction block with
  | done => trivial
  | op item rest ih => exact ⟨hpq item h.1, ih h.2⟩
  | loop body rest ihbody ihrest => exact ⟨ihbody h.1, ihrest h.2⟩

/-- A loop that is laid out from `start` on is tested at its two brackets. -/
def Tests (start : Nat) (body : Block α) (position : Nat) : Prop :=
  position = start ∨ position = start + body.size + 1

/-- A configuration stands at the beginning of a block that is laid out from `start` on, or at the
end of the loop that the block begins with. -/
def Meets (start : Nat) : Block α → Config → Prop
  | loop body _, config => Tests start body config.position
  | _, config => config.position = start

/-- The execution of a block that is laid out from a position on. It begins in a configuration at
which the block is met, goes through the configurations that are listed, and ends behind the block
or with an error. Items do what `act` says. -/
inductive Exec (act : α → Machine → Outcome Machine) :
    Nat → Block α → Config → List Config → Outcome Config → Prop
  | done {start : Nat} {machine : Machine} :
      Exec act start .done ⟨start, machine⟩ [] (.done ⟨start, machine⟩)
  | op {start : Nat} {item : α} {rest : Block α} {machine next : Machine}
      {visited : List Config} {outcome : Outcome Config} (hact : act item machine = .done next)
      (hrest : Exec act (start + 1) rest ⟨start + 1, next⟩ visited outcome) :
      Exec act start (.op item rest) ⟨start, machine⟩ (⟨start, machine⟩ :: visited) outcome
  | opFails {start : Nat} {item : α} {rest : Block α} {machine stopped : Machine} {error : Error}
      (hact : act item machine = .failed error stopped) :
      Exec act start (.op item rest) ⟨start, machine⟩ [⟨start, machine⟩]
        (.failed error ⟨start, stopped⟩)
  | leave {start position : Nat} {body rest : Block α} {machine : Machine} {visited : List Config}
      {outcome : Outcome Config} (htest : Tests start body position)
      (hzero : machine.tape.current = 0)
      (hrest : Exec act (start + body.size + 2) rest ⟨start + body.size + 2, machine⟩
        visited outcome) :
      Exec act start (.loop body rest) ⟨position, machine⟩ (⟨position, machine⟩ :: visited) outcome
  | round {start position : Nat} {body rest : Block α} {machine : Machine} {next : Config}
      {inner visited : List Config} {outcome : Outcome Config}
      (htest : Tests start body position) (hne : machine.tape.current ≠ 0)
      (hbody : Exec act (start + 1) body ⟨start + 1, machine⟩ inner (.done next))
      (hagain : Exec act start (.loop body rest) next visited outcome) :
      Exec act start (.loop body rest) ⟨position, machine⟩
        (⟨position, machine⟩ :: (inner ++ visited)) outcome
  | roundFails {start position : Nat} {body rest : Block α} {machine : Machine}
      {stopped : Config} {error : Error} {inner : List Config}
      (htest : Tests start body position) (hne : machine.tape.current ≠ 0)
      (hbody : Exec act (start + 1) body ⟨start + 1, machine⟩ inner (.failed error stopped)) :
      Exec act start (.loop body rest) ⟨position, machine⟩ (⟨position, machine⟩ :: inner)
        (.failed error stopped)

/-- What items do one after another. -/
def actAll (act : α → Machine → Outcome Machine) : List α → Machine → Outcome Machine
  | [], machine => .done machine
  | item :: items, machine => (act item machine).bind (actAll act items)

/-- A machine with the steps `go` takes the steps of a block that is laid out from a position on:
it acts on an item and goes on to the next position, and both brackets of a loop lead behind the
loop if the current cell is zero, and into its body otherwise. -/
def Follows (go : Config → Option (Outcome Config)) (act : α → Machine → Outcome Machine) :
    Nat → Block α → Prop
  | _, done => True
  | start, op item rest =>
    (∀ machine, go ⟨start, machine⟩ = some (Config.act ⟨start, machine⟩ (act item))) ∧
      rest.Follows go act (start + 1)
  | start, loop body rest =>
    (∀ position machine, Tests start body position →
      go ⟨position, machine⟩ = some (.done ⟨if machine.tape.current = 0 then start + body.size + 2
        else start + 1, machine⟩)) ∧
      body.Follows go act (start + 1) ∧ rest.Follows go act (start + body.size + 2)

variable {act : α → Machine → Outcome Machine} {go : Config → Option (Outcome Config)}
  {start : Nat} {block : Block α} {config : Config} {visited : List Config}
  {outcome : Outcome Config}

/-- A block is met at its beginning. -/
theorem meets_start (start : Nat) (block : Block α) (machine : Machine) :
    block.Meets start ⟨start, machine⟩ := by
  cases block with
  | done => rfl
  | op item rest => rfl
  | loop body rest => exact Or.inl rfl

/-- An execution begins where the block is met. -/
theorem Exec.meets (h : Exec act start block config visited outcome) :
    block.Meets start config := by
  cases h with
  | done => rfl
  | op => rfl
  | opFails => rfl
  | leave htest => exact htest
  | round htest => exact htest
  | roundFails htest => exact htest

/-- An execution that ends without an error ends behind the block. -/
theorem Exec.position_eq {final : Config} (h : Exec act start block config visited (.done final)) :
    final.position = start + block.size := by
  generalize houtcome : Outcome.done final = outcome at h
  induction h with
  | done =>
    cases houtcome
    rfl
  | op _ _ ih =>
    rw [ih houtcome, size]
    omega
  | leave _ _ _ ih =>
    rw [ih houtcome, size]
    omega
  | round _ _ _ _ _ ih => exact ih houtcome
  | opFails => cases houtcome
  | roundFails => cases houtcome

/-- An execution of the body of a loop ends at the loop end. -/
theorem Exec.tests {final : Config} (h : Exec act (start + 1) block config visited (.done final)) :
    Tests start block final.position := by
  right
  rw [h.position_eq]
  omega

/-- An execution ends. -/
theorem Exec.terminates (h : Exec act start block config visited outcome) :
    outcome.Terminates := by
  induction h with
  | done => simp [Outcome.Terminates]
  | opFails => simp [Outcome.Terminates]
  | roundFails => simp [Outcome.Terminates]
  | op _ _ ih => exact ih
  | leave _ _ _ ih => exact ih
  | round _ _ _ _ _ ih => exact ih

/-- An execution of a block fails only where one of its items fails. -/
theorem Exec.exists_of_failed {stopped : Config} {error : Error}
    (h : Exec act start block config visited (.failed error stopped)) :
    ∃ item machine, act item machine = .failed error stopped.machine := by
  generalize houtcome : Outcome.failed error stopped = outcome at h
  induction h with
  | done => cases houtcome
  | op _ _ ih => exact ih houtcome
  | opFails hact =>
    cases houtcome
    exact ⟨_, _, hact⟩
  | leave _ _ _ ih => exact ih houtcome
  | round _ _ _ _ _ ih => exact ih houtcome
  | roundFails _ _ _ ih => exact ih houtcome

/-- A machine that follows a block goes through every execution of the block, and then goes on
from where that ends. -/
theorem walks_append_of_exec {final : Config} {after : List Config}
    (hfollows : block.Follows go act start)
    (h : Exec act start block config visited (.done final))
    (hafter : Walks go final after outcome) :
    Walks go config (visited ++ after) outcome := by
  generalize hreached : Outcome.done final = reached at h
  induction h generalizing final after with
  | done =>
    cases hreached
    exact hafter
  | op hact _ ih =>
    exact .step (by simp [hfollows.1, Config.act, hact]) (ih hfollows.2 hafter hreached)
  | leave htest hzero _ ih =>
    exact .step (by simp [hfollows.1 _ _ htest, hzero]) (ih hfollows.2.2 hafter hreached)
  | round htest hne _ _ ihbody ihagain =>
    rw [List.cons_append, List.append_assoc]
    exact .step (by simp [hfollows.1 _ _ htest, hne])
      (ihbody hfollows.2.1 (ihagain hfollows hafter hreached) rfl)
  | opFails => cases hreached
  | roundFails => cases hreached

/-- A machine that follows a block fails as an execution of the block does. -/
theorem walks_of_exec_failed {stopped : Config} {error : Error}
    (hfollows : block.Follows go act start)
    (h : Exec act start block config visited (.failed error stopped)) :
    Walks go config visited (.failed error stopped) := by
  generalize hreached : Outcome.failed error stopped = reached at h
  induction h with
  | done => cases hreached
  | op hact _ ih => exact .step (by simp [hfollows.1, Config.act, hact]) (ih hfollows.2 hreached)
  | opFails hact =>
    cases hreached
    exact .fail (by simp [hfollows.1, Config.act, hact])
  | leave htest hzero _ ih =>
    exact .step (by simp [hfollows.1 _ _ htest, hzero]) (ih hfollows.2.2 hreached)
  | round htest hne hbody _ _ ihagain =>
    exact .step (by simp [hfollows.1 _ _ htest, hne])
      (walks_append_of_exec hfollows.2.1 hbody (ihagain hfollows hreached))
  | roundFails htest hne _ ih =>
    exact .step (by simp [hfollows.1 _ _ htest, hne]) (ih hfollows.2.1 hreached)

/-- A run of a machine that follows a block begins with an execution of the block. That fails as
the run does, or the run goes on from where it ends. -/
theorem exec_of_walks (hfollows : block.Follows go act start) (hmeets : block.Meets start config)
    (h : Walks go config visited outcome) :
    (∃ before after final, visited = before ++ after ∧
      Exec act start block config before (.done final) ∧ Walks go final after outcome) ∨
    ∃ error stopped, outcome = .failed error stopped ∧
      Exec act start block config visited (.failed error stopped) := by
  -- each round of a loop is executed on what is left of the run, which is shorter
  induction hn : visited.length using Nat.strongRecOn generalizing block start config visited with
  | ind n ih =>
    subst hn
    obtain ⟨position, machine⟩ := config
    cases block with
    | done =>
      obtain rfl : position = start := hmeets
      exact .inl ⟨[], visited, _, rfl, .done, h⟩
    | op item rest =>
      obtain rfl : position = start := hmeets
      have hgo := hfollows.1 machine
      cases hact : act item machine with
      | done next =>
        simp only [Config.act, hact] at hgo
        obtain ⟨later, rfl, hlater⟩ := h.of_step hgo
        rcases ih _ (Nat.lt_succ_self _) hfollows.2 (meets_start _ rest next) hlater rfl with
          ⟨before, after, final, rfl, hexec, hafter⟩ | ⟨error, stopped, rfl, hexec⟩
        · exact .inl ⟨_ :: before, after, final, rfl, .op hact hexec, hafter⟩
        · exact .inr ⟨error, stopped, rfl, .op hact hexec⟩
      | failed error stopped =>
        simp only [Config.act, hact] at hgo
        obtain ⟨rfl, rfl⟩ := h.of_fail hgo
        exact .inr ⟨error, _, rfl, .opFails hact⟩
      | unfinished =>
        simp only [Config.act, hact] at hgo
        exact absurd hgo h.ne_unfinished
    | loop body rest =>
      have htest : Tests start body position := hmeets
      obtain ⟨later, rfl, hlater⟩ := h.of_step (hfollows.1 _ machine htest)
      by_cases hzero : machine.tape.current = 0
      · rw [if_pos hzero] at hlater
        rcases ih _ (Nat.lt_succ_self _) hfollows.2.2 (meets_start _ rest machine) hlater rfl with
          ⟨before, after, final, rfl, hexec, hafter⟩ | ⟨error, stopped, rfl, hexec⟩
        · exact .inl ⟨_ :: before, after, final, rfl, .leave htest hzero hexec, hafter⟩
        · exact .inr ⟨error, stopped, rfl, .leave htest hzero hexec⟩
      · rw [if_neg hzero] at hlater
        rcases ih _ (Nat.lt_succ_self _) hfollows.2.1 (meets_start _ body machine) hlater rfl with
          ⟨inner, again, next, rfl, hbody, hagain⟩ | ⟨error, stopped, rfl, hbody⟩
        · have hnext : (loop body rest).Meets start next := hbody.tests
          have hshorter : again.length < (⟨position, machine⟩ :: (inner ++ again)).length := by
            rw [List.length_cons, List.length_append]
            omega
          rcases ih _ hshorter hfollows hnext hagain rfl with
            ⟨before, after, final, rfl, hexec, hafter⟩ | ⟨error, stopped, rfl, hexec⟩
          · exact .inl ⟨_ :: (inner ++ before), after, final, by simp,
              .round htest hzero hbody hexec, hafter⟩
          · exact .inr ⟨error, stopped, rfl, .round htest hzero hbody hexec⟩
        · exact .inr ⟨error, stopped, rfl, .roundFails htest hzero hbody⟩

/-- The runs of a machine that follows a block and halts behind it are the executions of the
block. -/
theorem walks_iff_exec (hfollows : block.Follows go act start)
    (hmeets : block.Meets start config)
    (hhalt : ∀ machine, go ⟨start + block.size, machine⟩ = none) :
    Walks go config visited outcome ↔ Exec act start block config visited outcome := by
  constructor
  · intro h
    rcases exec_of_walks hfollows hmeets h with
      ⟨before, after, final, rfl, hexec, hafter⟩ | ⟨error, stopped, rfl, hexec⟩
    · obtain ⟨position, machine⟩ := final
      obtain rfl := hexec.position_eq
      -- behind the block the machine halts, so that nothing comes after
      obtain ⟨rfl, rfl⟩ := hafter.unique (.halt (hhalt machine))
      simpa using hexec
    · exact hexec
  · intro h
    cases outcome with
    | done final =>
      obtain ⟨position, machine⟩ := final
      obtain rfl := h.position_eq
      simpa using walks_append_of_exec hfollows h (.halt (hhalt machine))
    | failed error stopped => exact walks_of_exec_failed hfollows h
    | unfinished => exact absurd rfl h.terminates

section Straight

variable {items : List α} {rest : Block α} {machine next stopped : Machine} {error : Error}

/-- An execution that begins with items does these one after another. -/
theorem exec_foldr_of_done (start : Nat) (hitems : actAll act items machine = .done next)
    (hrest : Exec act (start + items.length) rest ⟨start + items.length, next⟩ visited outcome) :
    ∃ before, before.length = items.length ∧
      Exec act start (items.foldr .op rest) ⟨start, machine⟩ (before ++ visited) outcome := by
  induction items generalizing start machine with
  | nil =>
    cases hitems
    exact ⟨[], rfl, hrest⟩
  | cons item items ih =>
    rw [actAll] at hitems
    cases hact : act item machine with
    | done middle =>
      rw [hact] at hitems
      rw [List.length_cons, Nat.add_comm items.length, ← Nat.add_assoc] at hrest
      obtain ⟨before, hlength, hexec⟩ := ih (start + 1) hitems hrest
      exact ⟨_ :: before, congrArg (· + 1) hlength, .op hact hexec⟩
    | failed error stopped =>
      rw [hact] at hitems
      cases hitems
    | unfinished =>
      rw [hact] at hitems
      cases hitems

/-- An execution that begins with items fails if one of these fails. -/
theorem exec_foldr_of_failed (start : Nat)
    (hitems : actAll act items machine = .failed error stopped) :
    ∃ visited position, visited.length ≤ items.length ∧
      start ≤ position ∧ position < start + items.length ∧
      Exec act start (items.foldr .op rest) ⟨start, machine⟩ visited
        (.failed error ⟨position, stopped⟩) := by
  induction items generalizing start machine with
  | nil => cases hitems
  | cons item items ih =>
    rw [actAll] at hitems
    rw [List.length_cons]
    cases hact : act item machine with
    | done middle =>
      rw [hact] at hitems
      obtain ⟨visited, position, hlength, hle, hlt, hexec⟩ := ih (start + 1) hitems
      exact ⟨⟨start, machine⟩ :: visited, position, Nat.succ_le_succ hlength, by omega, by omega,
        .op hact hexec⟩
    | failed error stopped =>
      rw [hact] at hitems
      cases hitems
      exact ⟨[⟨start, machine⟩], start, by simp, Nat.le_refl _, by omega, .opFails hact⟩
    | unfinished =>
      rw [hact] at hitems
      cases hitems

/-- An execution that begins with items goes on behind them, or ends with the failure of one of
them. -/
theorem of_exec_foldr (h : Exec act start (items.foldr .op rest) ⟨start, machine⟩ visited outcome) :
    (∃ next before after, visited = before ++ after ∧ before.length = items.length ∧
      actAll act items machine = .done next ∧
      Exec act (start + items.length) rest ⟨start + items.length, next⟩ after outcome) ∨
    ∃ error stopped position, start ≤ position ∧ position < start + items.length ∧
      actAll act items machine = .failed error stopped ∧
      outcome = .failed error ⟨position, stopped⟩ := by
  induction items generalizing start machine visited with
  | nil => exact .inl ⟨machine, [], visited, rfl, rfl, rfl, h⟩
  | cons item items ih =>
    rw [List.length_cons, actAll]
    cases h with
    | op hact hrest =>
      rw [hact, Outcome.bind_done]
      rcases ih hrest with ⟨next, before, after, rfl, hlength, hitems, hafter⟩ |
        ⟨error, stopped, position, hle, hlt, hitems, rfl⟩
      · refine .inl ⟨next, _ :: before, after, rfl, congrArg (· + 1) hlength, hitems, ?_⟩
        rwa [Nat.add_comm items.length, ← Nat.add_assoc]
      · exact .inr ⟨error, stopped, position, by omega, by omega, hitems, rfl⟩
    | opFails hact =>
      rw [hact]
      exact .inr ⟨_, _, start, Nat.le_refl _, by omega, rfl, rfl⟩

end Straight

end Block

end TapeLang

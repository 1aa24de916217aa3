import TapeLang.Proofs.Native.Structured
import TapeLang.Proofs.Tape

/-!
# Code that implements a block

A machine of whatever kind runs code for a block of ops. `Steps.Comes` says that it comes to where
an outcome of structured execution says; while an execution is unfinished, it takes steps, and the
more the longer the execution has gone on. `Steps.Implements` describes code by the states in which
it stands between its parts.

* `Steps.comes_moveBy`, `Steps.comes_scanUntilZero`: what comes of moves and scans.
* `Steps.comes_exec`: code that implements a block does what the structured execution of the block
  does, by induction on the fuel of the execution.
-/

namespace TapeLang

/-- A scan moves the pointer and goes on. -/
theorem Machine.onTape_scan_succ {machine : Machine} {step : Int} {fuel : Nat}
    (hne : machine.tape.current ≠ 0) :
    machine.onTape (Tape.scan step (fuel + 1)) =
      (machine.moveBy step).bind (·.onTape (Tape.scan step fuel)) := by
  rw [moveBy, onTape_eq, onTape_eq, Tape.scan, if_neg hne]
  cases machine.tape.moveBy step with
  | done tape => rfl
  | failed error tape => rfl
  | unfinished => rfl

/-- The steps of a machine with states of type `σ`: how many of them lead from one state to
another. -/
structure Steps (σ : Type) where
  /-- So many steps lead from the one state to the other. -/
  Leads : Nat → σ → σ → Prop
  /-- No steps lead nowhere else. -/
  refl : ∀ state, Leads 0 state state
  /-- Steps follow one another. -/
  trans : ∀ {count more : Nat} {state mid final : σ}, Leads count state mid →
    Leads more mid final → Leads (count + more) state final

namespace Steps

variable {σ : Type}

/-- From a state the machine comes to where an outcome says: to a state that `arrives` describes, or
to one in which it leaves the code with an index that is not on the tape. If the outcome is not
known, it takes at least `slack` steps. -/
def Comes (steps : Steps σ) (arrives : Machine → σ → Prop) (leaves : Int → Machine → σ → Prop)
    (slack : Nat) (state : σ) : Outcome Machine → Prop
  | .done machine => ∃ count next, steps.Leads count state next ∧ arrives machine next
  | .failed error machine => ∃ index : Int, error = .outOfRange index ∧
      ¬ (0 ≤ index ∧ index < tapeSize) ∧ index.natAbs < 0x100000000 ∧
      ∃ count next, steps.Leads count state next ∧ leaves index machine next
  | .unfinished => ∃ count next, slack ≤ count ∧ steps.Leads count state next

/-- The machine runs code for a block. The code is entered in states that `entry` describes, and
`behind` describes those in which it has been run. Between the parts of the code the machine stands
in states that are described as well: behind each item, and at the tests, in the bodies and behind
the loops. -/
def Implements (steps : Steps σ) (act : Op → Machine → Outcome Machine)
    (leaves : Int → Machine → σ → Prop) :
    (Machine → σ → Prop) → Block Op → (Machine → σ → Prop) → Prop
  | entry, .done, behind => ∀ machine state, entry machine state → behind machine state
  | entry, .op item rest, behind => ∃ middle,
      (∀ machine state slack, entry machine state →
        steps.Comes middle leaves slack state (act item machine)) ∧
      steps.Implements act leaves middle rest behind
  | entry, .loop body rest, behind => ∃ test inside left,
      (∀ machine state, entry machine state → test machine state) ∧
      (∀ machine state, test machine state → ∃ count next, 0 < count ∧
        steps.Leads count state next ∧
        if machine.tape.current = 0 then left machine next else inside machine next) ∧
      steps.Implements act leaves inside body test ∧ steps.Implements act leaves left rest behind

variable {steps : Steps σ} {act : Op → Machine → Outcome Machine}
  {arrives behind entry : Machine → σ → Prop} {leaves : Int → Machine → σ → Prop}
  {count slack : Nat} {state next : σ} {machine : Machine} {outcome : Outcome Machine}

/-- What comes after some steps. -/
theorem comes_of_leads (h : steps.Leads count state next)
    (hnext : steps.Comes arrives leaves slack next outcome) :
    steps.Comes arrives leaves (slack + count) state outcome := by
  cases outcome with
  | done machine =>
    obtain ⟨more, final, hleads, hfinal⟩ := hnext
    exact ⟨_, final, steps.trans h hleads, hfinal⟩
  | failed error machine =>
    obtain ⟨index, herror, hrange, hsmall, more, final, hleads, hfinal⟩ := hnext
    exact ⟨index, herror, hrange, hsmall, _, final, steps.trans h hleads, hfinal⟩
  | unfinished =>
    obtain ⟨more, final, hslack, hleads⟩ := hnext
    exact ⟨_, final, by omega, steps.trans h hleads⟩

/-- More steps are enough steps. -/
theorem Comes.mono {fewer : Nat} (h : steps.Comes arrives leaves slack state outcome)
    (hle : fewer ≤ slack) : steps.Comes arrives leaves fewer state outcome := by
  cases outcome with
  | done machine => exact h
  | failed error machine => exact h
  | unfinished =>
    obtain ⟨more, final, hslack, hleads⟩ := h
    exact ⟨more, final, Nat.le_trans hle hslack, hleads⟩

/-- What comes of an outcome that is known does not depend on the number of steps. -/
theorem Comes.of_terminates {other : Nat} (h : steps.Comes arrives leaves slack state outcome)
    (hend : outcome.Terminates) : steps.Comes arrives leaves other state outcome := by
  cases outcome with
  | done machine => exact h
  | failed error machine => exact h
  | unfinished => exact absurd rfl hend

/-- What comes after one part of the code and then another. -/
theorem Comes.bind {middle : Machine → σ → Prop} {go : Machine → Outcome Machine}
    (h : steps.Comes middle leaves slack state outcome)
    (hgo : ∀ machine next, middle machine next →
      steps.Comes behind leaves slack next (go machine)) :
    steps.Comes behind leaves slack state (outcome.bind go) := by
  cases outcome with
  | done machine =>
    obtain ⟨count, next, hleads, hnext⟩ := h
    exact (comes_of_leads hleads (hgo machine next hnext)).mono (Nat.le_add_right _ _)
  | failed error machine => exact h
  | unfinished => exact h

/-- What comes of a move of the pointer, from what comes of it inside and outside the tape. -/
theorem comes_moveBy {delta : Int} (hsmall : delta.natAbs ≤ 0x80000000) (slack : Nat)
    (hinside : ∀ tape, machine.tape.moveBy delta = .done tape →
      ∃ count next, steps.Leads count state next ∧ arrives (machine.withTape tape) next)
    (houtside : ¬ (0 ≤ machine.tape.pointer + delta ∧ machine.tape.pointer + delta < tapeSize) →
      ∃ count next, steps.Leads count state next ∧
        leaves (machine.tape.pointer + delta) machine next) :
    steps.Comes arrives leaves slack state (machine.moveBy delta) := by
  rw [Machine.moveBy, Machine.onTape_eq]
  cases hmove : machine.tape.moveBy delta with
  | done tape => exact hinside tape hmove
  | failed error tape =>
    obtain ⟨rfl, rfl, hrange⟩ := Tape.of_moveBy_eq_failed hmove
    have hpointer := machine.tape.pointer.isLt
    simp only [tapeSize] at hpointer
    exact ⟨_, rfl, hrange, by omega, houtside hrange⟩
  | unfinished => exact absurd hmove (Tape.moveBy_ne_unfinished _ _)

/-- What comes of a scan, from what comes of its test, of its move and of the way back. -/
theorem comes_scanUntilZero {step : Int} {test moves back : Machine → σ → Prop}
    (htest : ∀ machine state, test machine state → ∃ count next, 0 < count ∧
      steps.Leads count state next ∧
      if machine.tape.current = 0 then arrives machine next else moves machine next)
    (hmove : ∀ machine state slack, moves machine state →
      steps.Comes back leaves slack state (machine.moveBy step))
    (hback : ∀ machine state, back machine state → ∃ count next, steps.Leads count state next ∧
      test machine next) (hstart : test machine state) (slack : Nat) :
    steps.Comes arrives leaves slack state (machine.onTape (·.scanUntilZero step)) := by
  -- with fuel the scan comes to where it says, and while it goes on each round takes a step
  have hscan : ∀ fuel machine state, test machine state →
      steps.Comes arrives leaves fuel state (machine.onTape (Tape.scan step fuel)) := by
    intro fuel
    induction fuel with
    | zero => exact fun _ state _ => ⟨0, state, Nat.le_refl _, steps.refl state⟩
    | succ fuel ih =>
      intro machine state hstart
      obtain ⟨count, next, hpos, hleads, hnext⟩ := htest machine state hstart
      by_cases hzero : machine.tape.current = 0
      · rw [if_pos hzero] at hnext
        rw [Machine.onTape_eq, Tape.scan, if_pos hzero]
        exact ⟨count, next, hleads, hnext⟩
      · rw [if_neg hzero] at hnext
        rw [Machine.onTape_scan_succ hzero]
        refine Comes.mono (comes_of_leads hleads ?_) (Nat.add_le_add_left hpos fuel)
        refine (hmove machine next fuel hnext).bind fun moved next hmoved => ?_
        obtain ⟨more, again, hleads', hagain⟩ := hback moved next hmoved
        exact (comes_of_leads hleads' (ih moved again hagain)).mono (Nat.le_add_right _ _)
  by_cases hend : machine.tape.scanUntilZero step = .unfinished
  · -- the scan stays in place for ever, so that it takes as many steps as are asked for
    have hunfinished := hscan slack machine state hstart
    rw [Machine.onTape_eq, Tape.scan_eq_unfinished hend] at hunfinished
    rw [Machine.onTape_eq, hend]
    exact hunfinished
  · -- a scan that ends does so after one round for each cell of the tape
    refine (hscan tapeSize machine state hstart).of_terminates fun hunfinished => hend ?_
    rw [Machine.onTape_eq] at hunfinished
    rw [Tape.scanUntilZero]
    cases hreached : Tape.scan step tapeSize machine.tape with
    | done tape =>
      rw [hreached] at hunfinished
      cases hunfinished
    | failed error tape =>
      rw [hreached] at hunfinished
      cases hunfinished
    | unfinished => rfl

/-- Code that implements a block does what the structured execution of the block does. -/
theorem comes_exec {block : Block Op} (h : steps.Implements act leaves entry block behind)
    (hentry : entry machine state) (fuel : Nat) :
    steps.Comes behind leaves (fuel - block.size) state (block.exec act fuel machine) := by
  induction fuel generalizing block entry behind machine state with
  | zero => exact ⟨0, state, by omega, steps.refl state⟩
  | succ fuel ih =>
    cases block with
    | done => exact ⟨0, state, steps.refl state, h machine state hentry⟩
    | op item rest =>
      obtain ⟨middle, hitem, hrest⟩ := h
      rw [Block.exec, Block.size, Nat.add_sub_add_right]
      exact (hitem machine state _ hentry).bind fun reached next hnext => ih hrest hnext
    | loop body rest =>
      obtain ⟨test, inside, left, hmeets, htest, hbody, hrest⟩ := h
      obtain ⟨count, next, hpos, hleads, hnext⟩ := htest machine state (hmeets machine state hentry)
      rw [Block.exec, Block.size]
      -- the step of the test makes up for the unit of fuel that a round takes
      refine Comes.mono (comes_of_leads hleads ?_)
        (?_ : _ ≤ (fuel + 1 - (body.size + rest.size + 2) - count) + count)
      · by_cases hzero : machine.tape.current = 0
        · rw [if_pos hzero] at hnext ⊢
          exact (ih hrest hnext).mono (by omega)
        · rw [if_neg hzero] at hnext ⊢
          refine ((ih hbody hnext).mono (by omega)).bind fun reached next hreached => ?_
          -- after the round the machine stands at the test again
          have hagain : steps.Implements act leaves test (.loop body rest) behind :=
            ⟨test, inside, left, fun _ _ => id, htest, hbody, hrest⟩
          have hcomes := ih hagain hreached
          rw [Block.size] at hcomes
          exact hcomes.mono (by omega)
      · omega

/-- How a call of code ends, from what comes of it and from how the machine stops. A machine that
has stopped has ended in one way only, and one that takes more steps than any number does not
end. -/
theorem ends_iff_endsWith {run : Nat → Outcome Machine} {size : Nat} {pointer : Fin tapeSize}
    {stops : σ → Outcome Machine → Prop} {ends : Outcome Machine → Prop}
    (hcomes : ∀ fuel, steps.Comes arrives leaves (fuel - size) state (run fuel))
    (harrives : ∀ machine next, arrives machine next →
      ∃ count last, steps.Leads count next last ∧ stops last (.done machine))
    (hleaves : ∀ (index : Int) machine next, ¬ (0 ≤ index ∧ index < tapeSize) →
      index.natAbs < 0x100000000 → leaves index machine next →
      ∃ count last, steps.Leads count next last ∧
        stops last ((Outcome.failed (.outOfRange index) machine).afterCall pointer))
    (hstops : ∀ count last outcome, steps.Leads count state last → stops last outcome →
      ∀ other, ends other ↔ outcome = other)
    (hlong : (∀ count, ∃ more next, count < more ∧ steps.Leads more state next) →
      ∀ outcome, ¬ ends outcome) (outcome : Outcome Machine) :
    ends outcome ↔ EndsWith (fun fuel => (run fuel).afterCall pointer) outcome := by
  -- an execution that ends, in order or off the tape, is followed to an end of the machine
  have hend : ∀ fuel, (run fuel).Terminates →
      ∃ count last, steps.Leads count state last ∧ stops last ((run fuel).afterCall pointer) := by
    intro fuel hterminates
    have hrun := hcomes fuel
    cases houtcome : run fuel with
    | done machine =>
      rw [houtcome] at hrun
      obtain ⟨count, next, hleads, hnext⟩ := hrun
      obtain ⟨more, last, hleads', hlast⟩ := harrives machine next hnext
      exact ⟨_, last, steps.trans hleads hleads', hlast⟩
    | failed error machine =>
      rw [houtcome] at hrun
      obtain ⟨index, rfl, hrange, hsmall, count, next, hleads, hnext⟩ := hrun
      obtain ⟨more, last, hleads', hlast⟩ := hleaves index machine next hrange hsmall hnext
      exact ⟨_, last, steps.trans hleads hleads', hlast⟩
    | unfinished => exact absurd houtcome hterminates
  constructor
  · intro h
    by_cases hterminates : ∃ fuel, (run fuel).Terminates
    · obtain ⟨fuel, hterminates⟩ := hterminates
      obtain ⟨count, last, hleads, hlast⟩ := hend fuel hterminates
      obtain rfl := (hstops count last _ hleads hlast outcome).mp h
      exact ⟨Outcome.terminates_afterCall.mpr hterminates, fuel, rfl⟩
    · -- the execution goes on for ever, and so does the machine
      refine absurd h (hlong (fun count => ?_) outcome)
      have hunfinished : run (count + 1 + size) = .unfinished :=
        Classical.byContradiction fun hne => hterminates ⟨_, hne⟩
      have hrun := hcomes (count + 1 + size)
      rw [hunfinished, Nat.add_sub_cancel] at hrun
      exact hrun
  · rintro ⟨hterminates, fuel, rfl⟩
    obtain ⟨count, last, hleads, hlast⟩ := hend fuel (Outcome.terminates_afterCall.mp hterminates)
    exact (hstops count last _ hleads hlast _).mpr rfl

end Steps

end TapeLang

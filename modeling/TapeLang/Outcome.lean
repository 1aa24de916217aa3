import TapeLang.Error

/-!
# Outcomes of a computation on a state

A computation on a state comes to an end, stops with an error, or is still going when it is cut
off. The first two leave a state behind: an error in the middle of a computation does not undo
what was done before it. `Outcome.iterate` repeats a computation; `walk` runs a machine that
fetches an item and acts on it until there is none to fetch. Both are cut off when their fuel is
used up, and giving a walk more fuel never changes how it ends (`walk_le`). `trail` lists the states
in which a walk acts.
-/

namespace TapeLang

/-- How a computation on states of type `σ` ended. -/
inductive Outcome (σ : Type) where
  /-- It came to its end. -/
  | done (state : σ)
  /-- It stopped with an error, in the state it had reached. -/
  | failed (error : Error) (state : σ)
  /-- It was still going when it was cut off. -/
  | unfinished
  deriving DecidableEq

namespace Outcome

variable {σ τ : Type}

/-- Goes on with `next` if the computation came to its end. -/
@[inline]
def bind (outcome : Outcome σ) (next : σ → Outcome σ) : Outcome σ :=
  match outcome with
  | done state => next state
  | failed error state => failed error state
  | unfinished => unfinished

/-- The same outcome, with its state seen through `view`. -/
@[inline]
def map (view : σ → τ) : Outcome σ → Outcome τ
  | done state => done (view state)
  | failed error state => failed error (view state)
  | unfinished => unfinished

/-- The state that is left behind, unless the computation was cut off. -/
def state? : Outcome σ → Option σ
  | done state => some state
  | failed _ state => some state
  | unfinished => none

/-- What the computation reports, unless it was cut off. -/
def result? : Outcome σ → Option (Except Error Unit)
  | done _ => some (.ok ())
  | failed error _ => some (.error error)
  | unfinished => none

/-- The computation came to its end or stopped with an error. -/
def Terminates (outcome : Outcome σ) : Prop :=
  outcome ≠ unfinished

/-- Does `action` `count` times, as long as it does not fail. -/
@[specialize]
def iterate (action : σ → Outcome σ) : Nat → σ → Outcome σ
  | 0, state => done state
  | count + 1, state =>
    match action state with
    | done next => iterate action count next
    | failed error next => failed error next
    | unfinished => unfinished

@[simp]
theorem bind_done (state : σ) (next : σ → Outcome σ) : (done state).bind next = next state := rfl

@[simp]
theorem bind_failed (error : Error) (state : σ) (next : σ → Outcome σ) :
    (failed error state).bind next = failed error state := rfl

@[simp]
theorem bind_unfinished (next : σ → Outcome σ) : unfinished.bind next = unfinished := rfl

@[simp]
theorem map_done (view : σ → τ) (state : σ) : (done state).map view = done (view state) := rfl

@[simp]
theorem map_failed (view : σ → τ) (error : Error) (state : σ) :
    (failed error state).map view = failed error (view state) := rfl

@[simp]
theorem map_unfinished (view : σ → τ) : unfinished.map view = unfinished := rfl

/-- Doing nothing further changes nothing. -/
@[simp]
theorem bind_done_right (outcome : Outcome σ) : outcome.bind done = outcome := by
  cases outcome <;> rfl

/-- Repeating an action once more does it first and repeats it after that. -/
theorem iterate_succ (action : σ → Outcome σ) (count : Nat) (state : σ) :
    iterate action (count + 1) state = (action state).bind (iterate action count) := by
  rw [iterate]
  cases action state <;> rfl

end Outcome

variable {σ ι : Type}

/-- Fetches an item and acts on it, again and again, until there is no item to fetch. Each item
takes one unit of `fuel`. -/
@[specialize]
def walk (fetch : σ → Option ι) (act : ι → σ → Outcome σ) : Nat → σ → Outcome σ
  | 0, _ => .unfinished
  | fuel + 1, state =>
    match fetch state with
    | none => .done state
    | some item =>
      match act item state with
      | .done next => walk fetch act fuel next
      | .failed error next => .failed error next
      | .unfinished => .unfinished

/-- The states in which a walk acts on an item, in order. -/
def trail (fetch : σ → Option ι) (act : ι → σ → Outcome σ) : Nat → σ → List σ
  | 0, _ => []
  | fuel + 1, state =>
    match fetch state with
    | none => []
    | some item =>
      match act item state with
      | .done next => state :: trail fetch act fuel next
      | .failed .. | .unfinished => [state]

/-- A walk acts on the item it fetches and goes on from there. -/
theorem walk_succ (fetch : σ → Option ι) (act : ι → σ → Outcome σ) (fuel : Nat) (state : σ) :
    walk fetch act (fuel + 1) state =
      match fetch state with
      | none => .done state
      | some item => (act item state).bind (walk fetch act fuel) := by
  rw [walk]
  cases fetch state with
  | none => rfl
  | some item => cases act item state <;> rfl

/-- A walk that has ended ends in the same way with more fuel. -/
theorem walk_le {fetch : σ → Option ι} {act : ι → σ → Outcome σ} {fuel more : Nat} {state : σ}
    (hle : fuel ≤ more) (hend : (walk fetch act fuel state).Terminates) :
    walk fetch act more state = walk fetch act fuel state := by
  induction fuel generalizing more state with
  | zero => exact absurd rfl hend
  | succ fuel ih =>
    obtain ⟨more, rfl⟩ : ∃ k, more = k + 1 := ⟨more - 1, by omega⟩
    rw [walk_succ] at hend
    rw [walk_succ, walk_succ]
    cases hf : fetch state with
    | none => rfl
    | some item =>
      simp only [hf] at hend ⊢
      cases ha : act item state with
      | done next =>
        rw [ha] at hend
        exact ih (by omega) hend
      | failed error next => rfl
      | unfinished => rfl

end TapeLang

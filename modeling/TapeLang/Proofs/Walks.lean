import TapeLang.Outcome

/-!
# Walks

A walk is cut off by its fuel, so what it does in the end is said in two ways: `EndsWith` asks for
an outcome that some fuel reaches, and `Walks` derives the outcome step by step, as a run with the
list of the states on its way.

* `walks_trail_of_walk` and `Walks.endsWith`: a walk ends with an outcome if and only if there is a
  run to it.
* `Walks.mem_visited_iff`: the states of a run are the states that the trails of the walk show.
* `Walks.unique`: a state has at most one run.
* `walk_congr`: machines with the same steps have the same walks.
-/

namespace TapeLang

variable {σ τ ι : Type}

/-- Given enough fuel, a computation ends with this outcome. -/
def EndsWith (compute : Nat → Outcome σ) (outcome : Outcome σ) : Prop :=
  outcome.Terminates ∧ ∃ fuel, compute fuel = outcome

/-- Given enough fuel, a computation ends. -/
def Halts (compute : Nat → Outcome σ) : Prop :=
  ∃ fuel, (compute fuel).Terminates

/-- A computation halts if it ends with some outcome. -/
theorem halts_iff_exists_endsWith {compute : Nat → Outcome σ} :
    Halts compute ↔ ∃ outcome, EndsWith compute outcome := by
  constructor
  · rintro ⟨fuel, hend⟩
    exact ⟨compute fuel, hend, fuel, rfl⟩
  · rintro ⟨outcome, hend, fuel, rfl⟩
    exact ⟨fuel, hend⟩

/-- Seen through a view, a computation comes to an end if and only if it does. -/
theorem Outcome.terminates_map {outcome : Outcome σ} {view : σ → τ} :
    (outcome.map view).Terminates ↔ outcome.Terminates := by
  cases outcome <;> simp [Terminates]

/-- Where what is made of the outcome of a computation terminates only with it, the end of the one
is what is made of the end of the other. -/
theorem endsWith_comp_iff {view : Outcome σ → Outcome τ}
    (hview : ∀ outcome, (view outcome).Terminates ↔ outcome.Terminates)
    {compute : Nat → Outcome σ} {outcome : Outcome τ} :
    EndsWith (fun fuel => view (compute fuel)) outcome ↔
      ∃ reached, EndsWith compute reached ∧ view reached = outcome := by
  constructor
  · rintro ⟨hend, fuel, rfl⟩
    exact ⟨compute fuel, ⟨(hview _).mp hend, fuel, rfl⟩, rfl⟩
  · rintro ⟨reached, ⟨hend, fuel, rfl⟩, rfl⟩
    exact ⟨(hview _).mpr hend, fuel, rfl⟩

/-- The step that a machine makes in a state; `none` where there is nothing to fetch. -/
def stepOf (fetch : σ → Option ι) (act : ι → σ → Outcome σ) (state : σ) : Option (Outcome σ) :=
  (fetch state).map fun item => act item state

/-- A machine with the steps `go`, started in a state, acts in the states `visited`, in this order,
and ends with an outcome. -/
inductive Walks (go : σ → Option (Outcome σ)) : σ → List σ → Outcome σ → Prop
  | halt {state : σ} (hgo : go state = none) : Walks go state [] (.done state)
  | fail {state stopped : σ} {error : Error} (hgo : go state = some (.failed error stopped)) :
      Walks go state [state] (.failed error stopped)
  | step {state next : σ} {visited : List σ} {outcome : Outcome σ}
      (hgo : go state = some (.done next)) (hrest : Walks go next visited outcome) :
      Walks go state (state :: visited) outcome

namespace Walks

variable {go : σ → Option (Outcome σ)} {state : σ} {visited visited' : List σ}
  {outcome outcome' : Outcome σ}

/-- A run ends. -/
theorem terminates (h : Walks go state visited outcome) : outcome.Terminates := by
  induction h with
  | halt => simp [Outcome.Terminates]
  | fail => simp [Outcome.Terminates]
  | step _ _ ih => exact ih

/-- A run from a state in which the machine can make a step goes on from the next state. -/
theorem of_step {next : σ} (h : Walks go state visited outcome)
    (hgo : go state = some (.done next)) :
    ∃ later, visited = state :: later ∧ Walks go next later outcome := by
  cases h with
  | halt hgo' => simp_all
  | fail hgo' => simp_all
  | step hgo' hrest =>
    rw [hgo, Option.some.injEq, Outcome.done.injEq] at hgo'
    subst hgo'
    exact ⟨_, rfl, hrest⟩

/-- A run from a state in which the machine fails ends there. -/
theorem of_fail {error : Error} {stopped : σ} (h : Walks go state visited outcome)
    (hgo : go state = some (.failed error stopped)) :
    visited = [state] ∧ outcome = .failed error stopped := by
  cases h <;> simp_all

/-- There is no run from a state in which the machine never finishes its step. -/
theorem ne_unfinished (h : Walks go state visited outcome) : go state ≠ some .unfinished := by
  cases h <;> simp_all

/-- A state has at most one run. -/
theorem unique (h : Walks go state visited outcome) (h' : Walks go state visited' outcome') :
    visited = visited' ∧ outcome = outcome' := by
  induction h generalizing visited' with
  | halt hgo => cases h' <;> simp_all
  | fail hgo => cases h' <;> simp_all
  | step hgo _ ih =>
    obtain ⟨later, rfl, hlater⟩ := h'.of_step hgo
    obtain ⟨rfl, rfl⟩ := ih hlater
    exact ⟨rfl, rfl⟩

end Walks

section Walk

variable {fetch : σ → Option ι} {act : ι → σ → Outcome σ} {state : σ} {visited : List σ}
  {outcome : Outcome σ}

/-- Machines that fetch the same items and do the same with them go through the same states, and
end in the same way, with any fuel. -/
theorem walk_congr {act' : ι → σ → Outcome σ}
    (h : ∀ state item, fetch state = some item → act item state = act' item state) (fuel : Nat)
    (state : σ) :
    walk fetch act fuel state = walk fetch act' fuel state ∧
      trail fetch act fuel state = trail fetch act' fuel state := by
  induction fuel generalizing state with
  | zero => exact ⟨rfl, rfl⟩
  | succ fuel ih =>
    rw [walk_succ, walk_succ, trail, trail]
    cases hfetch : fetch state with
    | none => exact ⟨rfl, rfl⟩
    | some item =>
      simp only [h state item hfetch]
      cases act' item state with
      | done next => exact ⟨(ih next).1, congrArg (state :: ·) (ih next).2⟩
      | failed error stopped => exact ⟨rfl, rfl⟩
      | unfinished => exact ⟨rfl, rfl⟩

/-- A walk that ends with its fuel is a run through the states of its trail. -/
theorem walks_trail_of_walk {fuel : Nat} (hend : (walk fetch act fuel state).Terminates) :
    Walks (stepOf fetch act) state (trail fetch act fuel state) (walk fetch act fuel state) := by
  induction fuel generalizing state with
  | zero => exact absurd rfl hend
  | succ fuel ih =>
    rw [walk_succ] at hend ⊢
    rw [trail]
    cases hfetch : fetch state with
    | none => exact .halt (by simp [stepOf, hfetch])
    | some item =>
      simp only [hfetch] at hend ⊢
      cases hact : act item state with
      | done next =>
        rw [hact] at hend
        exact .step (by simp [stepOf, hfetch, hact]) (ih hend)
      | failed error stopped => exact .fail (by simp [stepOf, hfetch, hact])
      | unfinished =>
        rw [hact] at hend
        exact absurd rfl hend

/-- With one more unit of fuel than there are states on its way, the walk follows a run. -/
theorem Walks.walk_eq (h : Walks (stepOf fetch act) state visited outcome) :
    walk fetch act (visited.length + 1) state = outcome ∧
      trail fetch act (visited.length + 1) state = visited := by
  induction h with
  | halt hgo =>
    simp only [stepOf, Option.map_eq_none_iff] at hgo
    simp [walk, trail, hgo]
  | fail hgo =>
    obtain ⟨item, hfetch, hact⟩ := Option.map_eq_some_iff.mp hgo
    simp [walk, trail, hfetch, hact]
  | step hgo hrest ih =>
    obtain ⟨item, hfetch, hact⟩ := Option.map_eq_some_iff.mp hgo
    rw [List.length_cons, walk_succ, trail]
    simp [hfetch, hact, ih]

/-- A run is the end of a walk. -/
theorem Walks.endsWith (h : Walks (stepOf fetch act) state visited outcome) :
    EndsWith (walk fetch act · state) outcome :=
  ⟨h.terminates, _, h.walk_eq.1⟩

/-- A walk ends with an outcome if and only if there is a run to it. -/
theorem endsWith_walk_iff :
    EndsWith (walk fetch act · state) outcome ↔
      ∃ visited, Walks (stepOf fetch act) state visited outcome := by
  constructor
  · rintro ⟨hend, fuel, rfl⟩
    exact ⟨_, walks_trail_of_walk hend⟩
  · rintro ⟨visited, h⟩
    exact h.endsWith

/-- A walk ends in one way only. -/
theorem endsWith_walk_unique {outcome' : Outcome σ} (h : EndsWith (walk fetch act · state) outcome)
    (h' : EndsWith (walk fetch act · state) outcome') : outcome = outcome' := by
  obtain ⟨visited, hwalks⟩ := endsWith_walk_iff.mp h
  obtain ⟨visited', hwalks'⟩ := endsWith_walk_iff.mp h'
  exact (hwalks.unique hwalks').2

/-- A walk halts if and only if there is a run. -/
theorem halts_walk_iff :
    Halts (walk fetch act · state) ↔
      ∃ visited outcome, Walks (stepOf fetch act) state visited outcome := by
  rw [halts_iff_exists_endsWith]
  simp only [endsWith_walk_iff]
  exact exists_comm

/-- However much fuel there is, a trail shows only states of the run. -/
theorem Walks.mem_of_mem_trail {fuel : Nat} {shown : σ}
    (h : Walks (stepOf fetch act) state visited outcome)
    (hmem : shown ∈ trail fetch act fuel state) : shown ∈ visited := by
  induction h generalizing fuel with
  | halt hgo =>
    simp only [stepOf, Option.map_eq_none_iff] at hgo
    cases fuel <;> simp [trail, hgo] at hmem
  | fail hgo =>
    obtain ⟨item, hfetch, hact⟩ := Option.map_eq_some_iff.mp hgo
    cases fuel <;> simp_all [trail]
  | step hgo _ ih =>
    obtain ⟨item, hfetch, hact⟩ := Option.map_eq_some_iff.mp hgo
    cases fuel with
    | zero => simp [trail] at hmem
    | succ fuel =>
      simp only [trail, hfetch, hact, List.mem_cons] at hmem
      exact List.mem_cons.mpr (hmem.imp_right ih)

/-- The states of a run are the states that the trails of the walk show. -/
theorem Walks.mem_visited_iff {shown : σ} (h : Walks (stepOf fetch act) state visited outcome) :
    shown ∈ visited ↔ ∃ fuel, shown ∈ trail fetch act fuel state := by
  constructor
  · intro hmem
    exact ⟨visited.length + 1, by rwa [h.walk_eq.2]⟩
  · rintro ⟨fuel, hmem⟩
    exact h.mem_of_mem_trail hmem

end Walk

end TapeLang

import TapeLang.Proofs.Execution

/-!
# Unfolded blocks

One block can be carried out at two grains: each of its items stands for several smaller steps on
the one side, and for several others on the other side. If the two sequences of steps do the same
for every item, up to how they fail, then so do the two blocks, however their loops go.

* `Block.exec_unfold`: an execution at one grain is matched by an execution at the other.
* `Block.paced_unfold`: if each item is one step on the other side, the execution there is not
  longer.
-/

namespace TapeLang

namespace Block

variable {α β γ : Type} {f : γ → List α} {g : γ → List β}

/-- The block in which each item is replaced by the steps that it stands for. -/
def unfold (f : γ → List α) : Block γ → Block α
  | done => .done
  | op item rest => (f item).foldr .op (rest.unfold f)
  | loop body rest => .loop (body.unfold f) (rest.unfold f)

/-- An item stands at one position when the block is laid out at one grain from a position on, and
at another when it is laid out at the other grain. -/
def Places (f : γ → List α) (g : γ → List β) : Nat → Nat → Block γ → γ → Nat → Nat → Prop
  | _, _, done, _, _, _ => False
  | start, start', op item rest, placed, position, position' =>
    (item = placed ∧ start = position ∧ start' = position') ∨
      rest.Places f g (start + (f item).length) (start' + (g item).length) placed position position'
  | start, start', loop body rest, placed, position, position' =>
    body.Places f g (start + 1) (start' + 1) placed position position' ∨
      rest.Places f g (start + (body.unfold f).size + 2) (start' + (body.unfold g).size + 2)
        placed position position'

/-- Both outcomes come to the end with the same state, or both fail. -/
def SameEnd : Outcome Machine → Outcome Machine → Prop
  | .done machine, .done machine' => machine = machine'
  | .failed .., .failed .. => True
  | _, _ => False

/-- To end alike is the same on both sides. -/
theorem SameEnd.symm {outcome outcome' : Outcome Machine} (h : SameEnd outcome outcome') :
    SameEnd outcome' outcome := by
  cases outcome <;> cases outcome' <;> first | exact Eq.symm h | exact h

/-- Only an outcome with the same state ends like one that comes to the end. -/
theorem SameEnd.eq_done {machine : Machine} {outcome : Outcome Machine}
    (h : SameEnd (.done machine) outcome) : outcome = .done machine := by
  cases outcome with
  | done machine' => exact congrArg Outcome.done (Eq.symm h)
  | failed error stopped => exact h.elim
  | unfinished => exact h.elim

/-- Only a failure ends like a failure. -/
theorem SameEnd.exists_failed {error : Error} {stopped : Machine} {outcome : Outcome Machine}
    (h : SameEnd (.failed error stopped) outcome) :
    ∃ error' stopped', outcome = .failed error' stopped' := by
  cases outcome with
  | failed error' stopped' => exact ⟨error', stopped', rfl⟩
  | done machine => exact h.elim
  | unfinished => exact h.elim

/-- How executions at two grains correspond: both come to the end with the same machine, or both
fail at the same item, which the first has met with the machine that it fails from. -/
def Corresponds (act : α → Machine → Outcome Machine) (act' : β → Machine → Outcome Machine)
    (f : γ → List α) (g : γ → List β) (start start' : Nat) (block : Block γ)
    (visited : List Config) : Outcome Config → Outcome Config → Prop
  | .done final, .done final' => final.machine = final'.machine
  | .failed error stopped, .failed error' stopped' =>
    ∃ item position position' machine, block.Places f g start start' item position position' ∧
      ⟨position, machine⟩ ∈ visited ∧
      (position ≤ stopped.position ∧ stopped.position < position + (f item).length) ∧
      (position' ≤ stopped'.position ∧ stopped'.position < position' + (g item).length) ∧
      actAll act (f item) machine = .failed error stopped.machine ∧
      actAll act' (g item) machine = .failed error' stopped'.machine
  | _, _ => False

variable {act : α → Machine → Outcome Machine} {act' : β → Machine → Outcome Machine}
  {start start' : Nat} {block body rest : Block γ} {visited before : List Config}
  {outcome outcome' : Outcome Config} {config : Config}

/-- What corresponds in a part of a block corresponds in the block. -/
theorem Corresponds.mono {part : Nat} {part' : Nat}
    (h : Corresponds act act' f g part part' body visited outcome outcome')
    (hplaces : ∀ item position position', body.Places f g part part' item position position' →
      block.Places f g start start' item position position')
    (hvisited : ∀ shown ∈ visited, shown ∈ before) :
    Corresponds act act' f g start start' block before outcome outcome' := by
  cases outcome with
  | done final =>
    cases outcome' with
    | done final' => exact h
    | failed error' stopped' => exact h.elim
    | unfinished => exact h.elim
  | failed error stopped =>
    cases outcome' with
    | done final' => exact h.elim
    | failed error' stopped' =>
      obtain ⟨item, position, position', machine, hplace, hmem, hfails⟩ := h
      exact ⟨item, position, position', machine, hplaces _ _ _ hplace, hvisited _ hmem, hfails⟩
    | unfinished => exact h.elim
  | unfinished => exact h.elim

/-- The executions of an unfolded block are matched by the executions at another grain. -/
def Matched (act : α → Machine → Outcome Machine) (act' : β → Machine → Outcome Machine)
    (f : γ → List α) (g : γ → List β) (block : Block γ) : Prop :=
  ∀ start start' config visited outcome,
    Exec act start (block.unfold f) config visited outcome →
    ∀ position', (block.unfold g).Meets start' ⟨position', config.machine⟩ →
      ∃ visited' outcome',
        Exec act' start' (block.unfold g) ⟨position', config.machine⟩ visited' outcome' ∧
          Corresponds act act' f g start start' block visited outcome outcome'

/-- The executions of an unfolded block are matched by executions at another grain that are not
longer, if at the other grain each item is a single step. -/
def Paced (act : α → Machine → Outcome Machine) (act' : β → Machine → Outcome Machine)
    (f : γ → List α) (g : γ → List β) (block : Block γ) : Prop :=
  ∀ start start' config visited outcome,
    Exec act start (block.unfold f) config visited outcome →
    ∀ position', (block.unfold g).Meets start' ⟨position', config.machine⟩ →
      ∃ visited' outcome',
        Exec act' start' (block.unfold g) ⟨position', config.machine⟩ visited' outcome' ∧
          Corresponds act act' f g start start' block visited outcome outcome' ∧
          ((∀ item, (g item).length ≤ 1) → visited'.length ≤ visited.length)

/-- An execution of a block that begins with steps begins where the block is laid out. -/
theorem position_eq_of_exec_foldr {items : List α} {rest : Block α} (hitems : items ≠ [])
    (h : Exec act start (items.foldr .op rest) config visited outcome) :
    config.position = start ∧ config ∈ visited := by
  obtain ⟨item, items, rfl⟩ := List.exists_cons_of_ne_nil hitems
  cases h with
  | op => exact ⟨rfl, List.mem_cons_self⟩
  | opFails => exact ⟨rfl, List.mem_cons_self⟩

/-- A block that begins with steps is met where it is laid out. -/
theorem position_eq_of_meets_foldr {items : List α} {rest : Block α} (hitems : items ≠ [])
    (h : (items.foldr Block.op rest).Meets start config) : config.position = start := by
  obtain ⟨item, items, rfl⟩ := List.exists_cons_of_ne_nil hitems
  exact h

/-- An item and what follows it are matched. -/
theorem paced_op {item : γ} (hf : f item ≠ []) (hg : g item ≠ [])
    (hsame : ∀ machine, SameEnd (actAll act (f item) machine) (actAll act' (g item) machine))
    (hrest : Paced act act' f g rest) : Paced act act' f g (op item rest) := by
  intro start start' config visited outcome hexec position' hmeets
  obtain ⟨hposition, hmem⟩ := position_eq_of_exec_foldr hf hexec
  obtain rfl : position' = start' := position_eq_of_meets_foldr hg hmeets
  obtain ⟨position, machine⟩ := config
  obtain rfl : position = start := hposition
  have hends := hsame machine
  have hsteps := List.length_pos_iff.mpr hf
  rcases of_exec_foldr hexec with ⟨next, before, after, rfl, hlength, hitems, hafter⟩ |
    ⟨error, stopped, reached, hle, hlt, hitems, rfl⟩
  · rw [hitems] at hends
    have hitems' := hends.eq_done
    obtain ⟨visited', outcome', hexec', hcorresponds, hpace⟩ :=
      hrest _ _ _ _ _ hafter _ (meets_start _ _ _)
    obtain ⟨before', hlength', hwhole⟩ := exec_foldr_of_done position' hitems' hexec'
    refine ⟨_, outcome', hwhole, hcorresponds.mono (fun _ _ _ => Or.inr) fun shown hshown => ?_,
      fun hsingle => ?_⟩
    · exact List.mem_append_right _ hshown
    · have hone := hsingle item
      have hlater := hpace hsingle
      rw [List.length_append, List.length_append]
      omega
  · -- the item fails on both sides, each time where it was met
    rw [hitems] at hends
    obtain ⟨error', stopped', hitems'⟩ := hends.exists_failed
    obtain ⟨visited', reached', hlength', hle', hlt', hexec'⟩ :=
      exec_foldr_of_failed position' hitems'
    refine ⟨visited', _, hexec', ⟨item, position, position', machine, Or.inl ⟨rfl, rfl, rfl⟩,
      hmem, ⟨hle, hlt⟩, ⟨hle', hlt'⟩, hitems, hitems'⟩, fun hsingle => ?_⟩
    have hone := hsingle item
    have hpos := List.length_pos_of_mem hmem
    omega

/-- A loop and what follows it are matched. -/
theorem paced_loop (hbody : Paced act act' f g body) (hrest : Paced act act' f g rest) :
    Paced act act' f g (loop body rest) := by
  intro start start' config visited outcome hexec
  -- the rounds of the one loop are counted off against the rounds of the other
  generalize hunfold : (loop body rest).unfold f = unfolded at hexec
  induction hexec with
  | done => cases hunfold
  | op => cases hunfold
  | opFails => cases hunfold
  | leave htest hzero hafter =>
    intro position' hmeets
    cases hunfold
    obtain ⟨visited', outcome', hexec', hcorresponds, hpace⟩ :=
      hrest _ _ _ _ _ hafter _ (meets_start _ _ _)
    refine ⟨_, outcome', .leave hmeets hzero hexec',
      hcorresponds.mono (fun _ _ _ => Or.inr) fun shown hshown => ?_,
      fun hsingle => Nat.succ_le_succ (hpace hsingle)⟩
    exact List.mem_cons_of_mem _ hshown
  | round htest hne hinner _ _ ihagain =>
    intro position' hmeets
    cases hunfold
    obtain ⟨inner', reached, hinner', hreached, hpace⟩ :=
      hbody _ _ _ _ _ hinner _ (meets_start _ _ _)
    cases reached with
    | done next' =>
      obtain ⟨middle, machine'⟩ := next'
      obtain rfl := hreached
      obtain ⟨visited', outcome', hagain', hcorresponds, hpace'⟩ :=
        ihagain rfl middle hinner'.tests
      refine ⟨_, outcome', .round hmeets hne hinner' hagain',
        hcorresponds.mono (fun _ _ _ => id) fun shown hshown => ?_, fun hsingle => ?_⟩
      · exact List.mem_cons_of_mem _ (List.mem_append_right _ hshown)
      · have hfirst := hpace hsingle
        have hlater := hpace' hsingle
        simp only [List.length_cons, List.length_append]
        omega
    | failed error stopped => exact hreached.elim
    | unfinished => exact hreached.elim
  | roundFails htest hne hinner =>
    intro position' hmeets
    cases hunfold
    obtain ⟨inner', reached, hinner', hreached, hpace⟩ :=
      hbody _ _ _ _ _ hinner _ (meets_start _ _ _)
    cases reached with
    | failed error' stopped' =>
      refine ⟨_, _, .roundFails hmeets hne hinner',
        hreached.mono (fun _ _ _ => Or.inl) fun shown hshown => ?_,
        fun hsingle => Nat.succ_le_succ (hpace hsingle)⟩
      exact List.mem_cons_of_mem _ hshown
    | done next' => exact hreached.elim
    | unfinished => exact hreached.elim

/-- The executions of an unfolded block are matched by the executions at another grain, if for each
item the steps at the one grain and at the other end alike. They are not longer if each item is a
single step there. -/
theorem paced_unfold (hitems : block.All fun item => f item ≠ [] ∧ g item ≠ [] ∧
      ∀ machine, SameEnd (actAll act (f item) machine) (actAll act' (g item) machine)) :
    Paced act act' f g block := by
  induction block with
  | done =>
    intro start start' config visited outcome hexec position' hmeets
    obtain rfl : position' = start' := hmeets
    cases hexec
    exact ⟨[], _, .done, rfl, fun _ => Nat.le_refl _⟩
  | op item rest ih =>
    obtain ⟨⟨hf, hg, hsame⟩, hrest⟩ := hitems
    exact paced_op hf hg hsame (ih hrest)
  | loop body rest ihbody ihrest => exact paced_loop (ihbody hitems.1) (ihrest hitems.2)

/-- The executions of an unfolded block are matched by the executions at another grain, if for each
item the steps at the one grain and at the other end alike. -/
theorem exec_unfold (hitems : block.All fun item => f item ≠ [] ∧ g item ≠ [] ∧
      ∀ machine, SameEnd (actAll act (f item) machine) (actAll act' (g item) machine)) :
    Matched act act' f g block := by
  intro start start' config visited outcome hexec position' hmeets
  obtain ⟨visited', outcome', hexec', hcorresponds, -⟩ :=
    paced_unfold hitems start start' config visited outcome hexec position' hmeets
  exact ⟨visited', outcome', hexec', hcorresponds⟩

end Block

end TapeLang

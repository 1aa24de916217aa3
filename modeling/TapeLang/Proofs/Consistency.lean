import TapeLang.Proofs.Relinking
import TapeLang.Proofs.Unmatched

/-!
# Consistent streams

The check of a stream goes over its ops once, with a stack of open loops. Of a loop start it looks
only at the op at its target, which has to jump back, and nesting is a matter of the loop ends
alone. Together these partial tests accept the streams in which all jumps nest and each has its
partner as its target. A stream that is refused breaks the rule that is reported.

## Main definitions

* `Stream.Consistent`: the jumps nest, and their targets are their partners.
* `Stream.Breaks`: an error of the check is right about the ops.

## Main results

* `Stream.checkOp_cases`: what checking one op comes to.
* `Stream.check_cases`: ops pass their check and are consistent, or break the rule that is reported.
* `Stream.validate_iff_consistent`: the streams that pass their check, the loops that are listed of
  them, and the errors of the others.
-/

namespace TapeLang

/-- Where a loop is open and ends, its brackets are partners. -/
theorem Bracket.OpenAt.partners {α : Type} {side : α → Option Bracket} {items : Array α}
    {position innermost : Nat} {outer : List Nat}
    (h : OpenAt side items position (innermost :: outer))
    (hside : sideAt side items position = some .closing) :
    Partners side items innermost position := by
  obtain ⟨hlt, hopening, hbalanced, -⟩ := h
  exact ⟨hlt, hopening, hside, hbalanced⟩

namespace Stream

/-- Two jumps of a sequence of ops are partners by their nesting, whatever their targets are. -/
def Partners (ops : Array Op) (opening closing : Nat) : Prop :=
  Bracket.Partners Op.side ops opening closing

/-- The jumps of a sequence of ops nest, and the target of each is the index of its partner. -/
structure Consistent (ops : Array Op) : Prop where
  /-- The jumps are balanced. -/
  matched : Bracket.Matched Op.side ops.toList
  /-- The target of a loop start is its loop end. -/
  loopStart : ∀ index target, ops[index]? = some (.jumpIfZero target) → Partners ops index target
  /-- The target of a loop end is its loop start. -/
  loopEnd : ∀ index target, ops[index]? = some (.jumpIfNotZero target) → Partners ops target index

/-- What an error of the check says about a sequence of ops. -/
inductive Breaks (ops : Array Op) : StreamError → Prop
  /-- There is no loop end at the target of a loop start, or it has another target. -/
  | noJumpBack {index target : Nat} (hop : ops[index]? = some (.jumpIfZero target))
      (hback : ops[target]? ≠ some (.jumpIfNotZero index)) : Breaks ops (.noJumpBack index target)
  /-- Where a loop ends, none is open. -/
  | noOpenLoop {index target : Nat} (hop : ops[index]? = some (.jumpIfNotZero target))
      (hopen : Bracket.OpenAt Op.side ops index []) : Breaks ops (.noOpenLoop index)
  /-- Where a loop ends, another one is the innermost open loop. -/
  | wrongLoop {index target innermost : Nat} {outer : List Nat}
      (hop : ops[index]? = some (.jumpIfNotZero target))
      (hopen : Bracket.OpenAt Op.side ops index (innermost :: outer)) (hne : innermost ≠ target) :
      Breaks ops (.wrongLoop index target innermost)
  /-- A loop is open behind the last op. -/
  | neverClosed {innermost : Nat} {outer : List Nat}
      (hopen : Bracket.OpenAt Op.side ops ops.size (innermost :: outer)) :
      Breaks ops (.neverClosed innermost)

/-- What the check finds out about the op at an index when it accepts it. That the target of a loop
start is its partner is found out only at the target. -/
def Accepted (ops : Array Op) (index : Nat) : Op → Prop
  | .jumpIfZero target => ops[target]? = some (.jumpIfNotZero index)
  | .jumpIfNotZero target => Partners ops target index
  | _ => True

variable {ops : Array Op} {stream : Stream} {index opening closing : Nat} {opened : List Nat}

/-! ### Checking the ops one after another -/

/-- Checking an op follows the open loops past it, or finds a broken rule. -/
theorem checkOp_cases {op : Op} (hop : ops[index]? = some op)
    (hopen : Bracket.OpenAt Op.side ops index opened) :
    (∃ next, checkOp ops opened (op, index) = .ok next ∧
      Bracket.OpenAt Op.side ops (index + 1) next ∧ Accepted ops index op) ∨
    ∃ cause, checkOp ops opened (op, index) = .error cause ∧ Breaks ops cause := by
  have hside : Bracket.sideAt Op.side ops index = op.side := Bracket.sideAt_of_get hop
  cases op with
  | jumpIfZero target =>
    by_cases hback : ops[target]? = some (.jumpIfNotZero index)
    · exact .inl ⟨index :: opened, if_pos hback, hopen.opening hside, hback⟩
    · exact .inr ⟨.noJumpBack index target, if_neg hback, .noJumpBack hop hback⟩
  | jumpIfNotZero target =>
    cases opened with
    | nil => exact .inr ⟨.noOpenLoop index, rfl, .noOpenLoop hop hopen⟩
    | cons innermost outer =>
      -- the loop that ends is the innermost one, whose start the jump has to lead to
      by_cases htarget : innermost = target
      · subst htarget
        exact .inl ⟨outer, if_pos rfl, hopen.closing hside, hopen.partners hside⟩
      · exact .inr ⟨.wrongLoop index target innermost, if_neg htarget,
          .wrongLoop hop hopen htarget⟩
  | _ => exact .inl ⟨opened, rfl, hopen.next (Array.getElem?_eq_some_iff.mp hop).1 hside, trivial⟩

/-- Checking ops one after another follows the open loops to the last of them, or finds a broken
rule. -/
theorem foldlM_checkOp_cases {items : List Op}
    (hitems : ∀ k op, items[k]? = some op → ops[index + k]? = some op)
    (hopen : Bracket.OpenAt Op.side ops index opened) :
    (∃ final, (items.zipIdx index).foldlM (checkOp ops) opened = .ok final ∧
      Bracket.OpenAt Op.side ops (index + items.length) final ∧
      ∀ k op, items[k]? = some op → Accepted ops (index + k) op) ∨
    ∃ cause, (items.zipIdx index).foldlM (checkOp ops) opened = .error cause ∧
      Breaks ops cause := by
  -- the stack holds the open loops before each op
  induction items generalizing index opened with
  | nil => exact .inl ⟨opened, rfl, hopen, by simp⟩
  | cons item items ih =>
    have hitem : ops[index]? = some item := hitems 0 item rfl
    have hnumber (k : Nat) : index + (k + 1) = index + 1 + k := by omega
    have hrest : ∀ k op, items[k]? = some op → ops[index + 1 + k]? = some op := fun k op hop => by
      rw [← hnumber]
      exact hitems (k + 1) op hop
    rw [List.zipIdx_cons, List.foldlM_cons]
    rcases checkOp_cases hitem hopen with
      ⟨next, hnext, hopenNext, haccepted⟩ | ⟨cause, herror, hbreaks⟩
    · rw [hnext, List.length_cons, hnumber items.length]
      rcases ih hrest hopenNext with ⟨final, hfold, hopenFinal, hall⟩ | hbroken
      · refine .inl ⟨final, hfold, hopenFinal, fun k op hop => ?_⟩
        cases k with
        | zero =>
          cases hop
          exact haccepted
        | succ k =>
          rw [hnumber]
          exact hall k op hop
      · exact .inr hbroken
    · rw [herror]
      exact .inr ⟨cause, rfl, hbreaks⟩

/-- Ops of which each is accepted, with no loop open behind them, are consistent. -/
theorem consistent_of_accepted (hopen : Bracket.OpenAt Op.side ops ops.size [])
    (hall : ∀ index op, ops[index]? = some op → Accepted ops index op) : Consistent ops where
  matched := by
    have hwhole : Bracket.openBetween Op.side ops 0 ops.size 0 = some 0 := hopen
    rwa [Bracket.openBetween, Array.extract_size, ← Bracket.matched_iff_openAfter] at hwhole
  loopStart index target hop := by
    -- the op at the target jumps back, and that op is accepted too
    have hback : ops[target]? = some (.jumpIfNotZero index) := hall index _ hop
    exact hall target _ hback
  loopEnd index target hop := hall index _ hop

/-- Ops pass their check and are consistent, or they break the rule that is reported. -/
theorem check_cases (ops : Array Op) :
    (check ops = .ok () ∧ Consistent ops) ∨
    ∃ cause, check ops = .error cause ∧ Breaks ops cause := by
  have hstart : Bracket.OpenAt Op.side ops 0 [] := Bracket.openBetween_self 0 0
  have hitems : ∀ k op, ops.toList[k]? = some op → ops[0 + k]? = some op := by simp
  rw [check]
  rcases foldlM_checkOp_cases hitems hstart with
    ⟨final, hfold, hopen, hall⟩ | ⟨cause, hfold, hbreaks⟩
  · rw [Nat.zero_add, Array.length_toList] at hopen
    rw [hfold]
    cases final with
    | nil => exact .inl ⟨rfl, consistent_of_accepted hopen (by simpa using hall)⟩
    | cons innermost outer => exact .inr ⟨_, rfl, .neverClosed hopen⟩
  · rw [hfold]
    exact .inr ⟨cause, rfl, hbreaks⟩

/-! ### Consistent ops -/

/-- In consistent ops there is a jump back at the target of a loop start. -/
theorem Consistent.jumpBack (h : Consistent ops) {target : Nat}
    (hop : ops[index]? = some (.jumpIfZero target)) :
    ops[target]? = some (.jumpIfNotZero index) := by
  -- the partner is a loop end, whose own partner is the loop start
  have hpartners := h.loopStart index target hop
  obtain ⟨op, htarget, hside⟩ := Option.bind_eq_some_iff.mp hpartners.closing_eq
  obtain ⟨back, rfl⟩ := Op.exists_of_closing hside
  obtain rfl := (h.loopEnd target back htarget).opening_unique hpartners
  exact htarget

/-- Consistent ops break no rule. -/
theorem Consistent.not_breaks (h : Consistent ops) {cause : StreamError} : ¬ Breaks ops cause := by
  rintro (@⟨index, target, hop, hback⟩ | @⟨index, target, hop, hopen⟩ |
    @⟨index, target, innermost, outer, hop, hopen, hne⟩ | @⟨innermost, outer, hopen⟩)
  · exact hback (h.jumpBack hop)
  · have hpartners := h.loopEnd index target hop
    exact hopen.not_paired_closing hpartners.closing_eq ⟨target, .inr hpartners⟩
  · have hpartners := h.loopEnd index target hop
    exact hne ((hopen.partners hpartners.closing_eq).opening_unique hpartners)
  · -- the outermost of the open loops would have no partner
    obtain ⟨loops, outermost, hloops⟩ :=
      (List.eq_nil_or_concat' (innermost :: outer)).resolve_left (List.cons_ne_nil _ _)
    rw [hloops] at hopen
    obtain ⟨-, hopening, -, -⟩ := hopen.outermost
    obtain ⟨op, hop, hside⟩ := Option.bind_eq_some_iff.mp hopening
    obtain ⟨target, rfl⟩ := Op.exists_of_opening hside
    exact hopen.not_paired_outermost ⟨target, .inl (h.loopStart outermost target hop)⟩

/-- A loop is listed with the target of its start. -/
theorem mem_loopPairs_iff : (opening, closing) ∈ stream.loopPairs ↔
    stream.ops[opening]? = some (.jumpIfZero closing) := by
  rw [loopPairs, List.mem_filterMap]
  constructor
  · rintro ⟨⟨op, index⟩, hmem, hpair⟩
    have hop := List.mem_zipIdx_iff_getElem?.mp hmem
    cases op <;> cases hpair
    simpa using hop
  · intro hop
    exact ⟨(.jumpIfZero closing, opening),
      List.mem_zipIdx_iff_getElem?.mpr (by simpa using hop), rfl⟩

/-- The loops are listed in the order in which they start. -/
theorem pairwise_loopPairs (stream : Stream) :
    stream.loopPairs.Pairwise fun pair later => pair.1 < later.1 := by
  have hindices : (stream.ops.toList.zipIdx.map Prod.snd).Pairwise (· < ·) := by
    rw [List.zipIdx_map_snd]
    exact List.pairwise_lt_range'
  refine List.Pairwise.filterMap _ ?_ (List.pairwise_map.mp hindices)
  rintro ⟨op, index⟩ ⟨op', index'⟩ hlt pair hpair pair' hpair'
  cases op <;> cases hpair
  cases op' <;> cases hpair'
  exact hlt

/-- The loops that are listed of consistent ops are the pairs of partners. -/
theorem Consistent.mem_loopPairs_iff (h : Consistent stream.ops) :
    (opening, closing) ∈ stream.loopPairs ↔ Partners stream.ops opening closing := by
  rw [Stream.mem_loopPairs_iff]
  constructor
  · exact h.loopStart opening closing
  · intro hpartners
    obtain ⟨op, hop, hside⟩ := Option.bind_eq_some_iff.mp hpartners.opening_eq
    obtain ⟨target, rfl⟩ := Op.exists_of_opening hside
    obtain rfl := (h.loopStart opening target hop).closing_unique hpartners
    exact hop

/-- A stream passes its check if and only if its ops are consistent. -/
theorem validate_eq_ok_iff : stream.validate = .ok () ↔ Consistent stream.ops := by
  rcases check_cases stream.ops with ⟨hcheck, hconsistent⟩ | ⟨cause, hcheck, hbreaks⟩
  · simp [validate, hcheck, hconsistent, Except.mapError]
  · have hnot : ¬ Consistent stream.ops := fun hconsistent => hconsistent.not_breaks hbreaks
    simp [validate, hcheck, hnot, Except.mapError]

/-- A stream passes its check if and only if its jumps are balanced and each has its partner as its
target. The loops that are listed of it are then the pairs of partners, in the order in which they
start. The error of any other stream is blamed on the stream, and says which rule it breaks. -/
theorem validate_iff_consistent (stream : Stream) :
    (stream.validate = .ok () ↔ Consistent stream.ops) ∧
    (stream.validate = .ok () →
      (∀ opening closing, (opening, closing) ∈ stream.loopPairs ↔
        Partners stream.ops opening closing) ∧
      (stream.loopPairs.Pairwise fun pair later => pair.1 < later.1) ∧
      ∀ pair ∈ stream.loopPairs, pair.1 < pair.2) ∧
    ∀ error, stream.validate = .error error →
      error.kind = .stream ∧ ∃ cause, error = .stream cause ∧ Breaks stream.ops cause := by
  refine ⟨validate_eq_ok_iff, fun hvalid => ?_, fun error herror => ?_⟩
  · have hconsistent := validate_eq_ok_iff.mp hvalid
    refine ⟨fun opening closing => hconsistent.mem_loopPairs_iff, pairwise_loopPairs stream, ?_⟩
    rintro ⟨opening, closing⟩ hmem
    exact (hconsistent.mem_loopPairs_iff.mp hmem).lt
  · rcases check_cases stream.ops with ⟨hcheck, -⟩ | ⟨cause, hcheck, hbreaks⟩
    · simp [validate, hcheck, Except.mapError] at herror
    · simp only [validate, hcheck, Except.mapError, Except.error.injEq] at herror
      subst herror
      exact ⟨rfl, cause, rfl, hbreaks⟩

/-- Two nested loops are consistent. In the second stream each target leads to a jump that leads
back, but the loops cross: neither has its partner as its target. -/
theorem validate_iff_consistent_crossed :
    (ofOps #[.jumpIfZero 5, .add 1, .jumpIfZero 4, .write 1, .jumpIfNotZero 2,
        .jumpIfNotZero 0]).validate = .ok () ∧
      Consistent #[.jumpIfZero 5, .add 1, .jumpIfZero 4, .write 1, .jumpIfNotZero 2,
        .jumpIfNotZero 0] ∧
      Partners #[.jumpIfZero 5, .add 1, .jumpIfZero 4, .write 1, .jumpIfNotZero 2,
        .jumpIfNotZero 0] 2 4 ∧
      (ofOps #[.jumpIfZero 2, .jumpIfZero 3, .jumpIfNotZero 0, .jumpIfNotZero 1]).validate =
        .error (.stream (.wrongLoop 2 0 1)) ∧
      ¬ Consistent #[.jumpIfZero 2, .jumpIfZero 3, .jumpIfNotZero 0, .jumpIfNotZero 1] ∧
      Breaks #[.jumpIfZero 2, .jumpIfZero 3, .jumpIfNotZero 0, .jumpIfNotZero 1]
        (.wrongLoop 2 0 1) := by
  have hvalid : (ofOps #[.jumpIfZero 5, .add 1, .jumpIfZero 4, .write 1, .jumpIfNotZero 2,
      .jumpIfNotZero 0]).validate = .ok () := rfl
  have herror : (ofOps #[.jumpIfZero 2, .jumpIfZero 3, .jumpIfNotZero 0,
      .jumpIfNotZero 1]).validate = .error (.stream (.wrongLoop 2 0 1)) := rfl
  obtain ⟨hnested, hpairs, -⟩ := validate_iff_consistent (ofOps #[.jumpIfZero 5, .add 1,
    .jumpIfZero 4, .write 1, .jumpIfNotZero 2, .jumpIfNotZero 0])
  obtain ⟨hcrossed, -, herrors⟩ := validate_iff_consistent (ofOps #[.jumpIfZero 2, .jumpIfZero 3,
    .jumpIfNotZero 0, .jumpIfNotZero 1])
  have hrefused := hcrossed.not.mp (by rw [herror]; simp)
  obtain ⟨-, cause, hcause, hbreaks⟩ := herrors _ herror
  cases hcause
  exact ⟨hvalid, hnested.mp hvalid, ((hpairs hvalid).1 2 4).mp (by decide), herror, hrefused,
    hbreaks⟩

end Stream

end TapeLang

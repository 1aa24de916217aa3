import Mathlib
import TapeLang.Interpreter.Profile

/-!
# What profiles count

A profile counts with arrays and hash maps. What it has counted is said here with two lists: the
kinds of the executed ops, and the traces up to the executed loop ends, each as often as it
occurred. All that a profile reports can be read off these lists, whatever the order in which the
ops were executed.

## Main definitions

* `Profile.Records`: the profile has counted these kinds and these traces.
* `Profile.Reports`: what the reports of a profile add up to, and how the traces are listed.

## Main results

* `Profile.Records.record_plain`, `Profile.Records.record_loopEnd`: what one more op adds.
* `Profile.Records.reports`: a profile that has counted as many traces as loop ends reports as it
  should.
-/

namespace TapeLang

namespace Profile

/-- The profile has counted ops of these kinds, and loop ends after these traces. -/
structure Records (profile : Profile) (kinds : List Op.Kind) (traces : List String) : Prop where
  /-- Each kind is counted as often as it occurs. -/
  count_eq : ∀ kind, profile.count kind = kinds.count kind
  /-- Each trace that occurs is counted as often as it does, and the others have no entry. -/
  getElem?_traces : ∀ trace, profile.traces[trace]? =
    if trace ∈ traces then some (traces.count trace) else none

variable {profile : Profile} {kinds : List Op.Kind} {traces : List String}

/-- The profile of no ops has counted nothing. -/
theorem records_empty : empty.Records [] [] := by
  refine ⟨fun kind => ?_, fun trace => ?_⟩
  · simp [count, empty]
  · simp [empty]

/-! ### One more op -/

/-- Recording an op counts its kind. -/
theorem count_record (profile : Profile) (op : Op) (kind : Op.Kind) :
    (profile.record op).count kind = profile.count kind + if op.kind = kind then 1 else 0 := by
  have hcounts : (profile.record op).counts =
      profile.counts.set op.kind.index (profile.counts[op.kind.index] + 1) := by
    cases op <;> rfl
  simp only [count, hcounts, Fin.getElem_fin, Vector.getElem_set]
  -- two kinds are counted at the same index only if they are the same kind
  by_cases hkind : op.kind = kind
  · simp [hkind]
  · have hindex : (op.kind.index : Nat) ≠ kind.index := fun heq =>
      hkind (Op.Kind.index_inj.mp (Fin.ext heq))
    simp [hkind, hindex]

/-- What recording an op adds to the kinds that were counted. -/
theorem Records.count_record (h : profile.Records kinds traces) (op : Op) (kind : Op.Kind) :
    (profile.record op).count kind = (kinds ++ [op.kind]).count kind := by
  rw [Profile.count_record, h.count_eq, List.count_append, List.count_singleton]
  simp only [beq_iff_eq]

/-- An op other than a loop end adds no trace. -/
theorem Records.record_plain {op : Op} (h : profile.Records kinds traces)
    (hop : op.kind ≠ .jumpIfNotZero) :
    (profile.record op).Records (kinds ++ [op.kind]) traces := by
  refine ⟨h.count_record op, fun trace => ?_⟩
  rw [← h.getElem?_traces trace]
  cases op with
  | jumpIfNotZero target => exact absurd rfl hop
  | _ => rfl

/-- A loop end adds the trace before it. -/
theorem Records.record_loopEnd (h : profile.Records kinds traces) (target : Nat) :
    (profile.record (.jumpIfNotZero target)).Records (kinds ++ [.jumpIfNotZero])
      (traces ++ [profile.current]) := by
  refine ⟨h.count_record (.jumpIfNotZero target), fun trace => ?_⟩
  show (profile.traces.alter profile.current fun n => some (n.getD 0 + 1))[trace]? = _
  rw [Std.HashMap.getElem?_alter, h.getElem?_traces, h.getElem?_traces]
  by_cases htrace : profile.current = trace
  · subst htrace
    by_cases hmem : profile.current ∈ traces
    · simp [hmem]
    · simp [hmem, List.count_eq_zero_of_not_mem hmem]
  · have hne : ¬ trace = profile.current := fun heq => htrace heq.symm
    simp [htrace, hne]

/-- A jump ends the current trace. -/
theorem current_record_of_isJump (profile : Profile) {op : Op} (h : op.isJump = true) :
    (profile.record op).current = "" := by
  cases op <;> first | rfl | cases h

/-- Any other op goes on with it. -/
theorem current_record_of_not_isJump (profile : Profile) {op : Op} (h : op.isJump = false) :
    (profile.record op).current = profile.current ++ traceText op := by
  cases op <;> first | rfl | cases h

/-! ### Reports -/

/-- Whether an entry stands before another one: it has the higher count, or the same count and the
lesser trace. -/
def Precedes (entry other : String × Nat) : Prop :=
  other.2 < entry.2 ∨ entry.2 = other.2 ∧ entry.1 < other.1

/-- What the reports of a profile add up to, and how the traces are listed. -/
structure Reports (profile : Profile) : Prop where
  /-- The counts of the traces add up to that of the loop ends. -/
  sum_loopTraces : (profile.loopTraces.map (·.2)).sum = profile.count .jumpIfNotZero
  /-- The counts of the kinds add up to the total. -/
  sum_counts : (Op.Kind.all.map profile.count).sum = profile.total
  /-- Each trace that was counted is listed with its count. -/
  mem_loopTraces : ∀ trace n, (trace, n) ∈ profile.loopTraces ↔
    profile.traceCount trace = n ∧ 0 < n
  /-- No trace is listed twice. -/
  nodup_loopTraces : (profile.loopTraces.map (·.1)).Nodup
  /-- The traces are listed in their order. -/
  pairwise_loopTraces : profile.loopTraces.Pairwise Precedes

/-- The counts in the order of their kinds. -/
theorem map_count_all (profile : Profile) :
    Op.Kind.all.map profile.count = profile.counts.toList := by
  obtain ⟨⟨⟨counts⟩, hsize⟩, traces, current⟩ := profile
  match counts, hsize with
  | [_, _, _, _, _, _, _, _, _, _, _], _ => rfl

/-- The total is the sum of the counts of all kinds. -/
theorem sum_counts (profile : Profile) :
    (Op.Kind.all.map profile.count).sum = profile.total := by
  rw [map_count_all, total, ← Vector.foldl_toList, List.sum_eq_foldl]

/-- The order of entries is transitive. -/
theorem traceOrder_trans (a b c : String × Nat) (hab : traceOrder a b = true)
    (hbc : traceOrder b c = true) : traceOrder a c = true := by
  simp only [traceOrder, Bool.or_eq_true, Bool.and_eq_true, decide_eq_true_eq, beq_iff_eq] at *
  rcases hab with hab | ⟨hcount, hab⟩
  · rcases hbc with hbc | ⟨hcount', hbc⟩
    · exact .inl (by omega)
    · exact .inl (by omega)
  · rcases hbc with hbc | ⟨hcount', hbc⟩
    · exact .inl (by omega)
    · exact .inr ⟨by omega, String.le_trans hab hbc⟩

/-- Of two entries one may stand before the other. -/
theorem traceOrder_total (a b : String × Nat) : (traceOrder a b || traceOrder b a) = true := by
  simp only [traceOrder, Bool.or_eq_true, Bool.and_eq_true, decide_eq_true_eq, beq_iff_eq]
  rcases Nat.lt_trichotomy a.2 b.2 with hlt | heq | hgt
  · exact .inr (.inl hlt)
  · rcases String.le_total a.1 b.1 with hle | hle
    · exact .inl (.inr ⟨heq, hle⟩)
    · exact .inr (.inr ⟨heq.symm, hle⟩)
  · exact .inl (.inl hgt)

/-- No trace is listed twice. -/
theorem nodup_loopTraces (profile : Profile) : (profile.loopTraces.map (·.1)).Nodup := by
  -- sorting changes the order only, and a hash map has each key once
  have hperm : (profile.loopTraces.map (·.1)).Perm (profile.traces.toList.map (·.1)) :=
    (List.mergeSort_perm _ traceOrder).map (·.1)
  rw [hperm.nodup_iff, List.Nodup, List.pairwise_map]
  apply Std.HashMap.distinct_keys_toList.imp
  intro entry other hne heq
  simp [heq] at hne

/-- The traces are listed in their order. -/
theorem pairwise_loopTraces (profile : Profile) : profile.loopTraces.Pairwise Precedes := by
  have hordered : profile.loopTraces.Pairwise fun entry other => traceOrder entry other = true :=
    List.pairwise_mergeSort traceOrder_trans traceOrder_total _
  have hdistinct := List.pairwise_map.mp profile.nodup_loopTraces
  apply (hordered.and hdistinct).imp
  rintro entry other ⟨horder, hne⟩
  simp only [traceOrder, Bool.or_eq_true, Bool.and_eq_true, decide_eq_true_eq,
    beq_iff_eq] at horder
  rcases horder with hlt | ⟨hcount, hle⟩
  · exact .inl hlt
  · -- equal texts would be one trace that is listed twice
    refine .inr ⟨hcount, Decidable.byContradiction fun hnot => hne ?_⟩
    exact String.le_antisymm hle (String.not_lt.mp hnot)

/-- The numbers of times that the kinds occur add up to the number of ops. -/
theorem sum_map_count_all (kinds : List Op.Kind) :
    (Op.Kind.all.map kinds.count).sum = kinds.length := by
  induction kinds with
  | nil => rfl
  | cons kind kinds ih =>
    rw [List.length_cons, ← ih]
    simp only [Op.Kind.all, List.map_cons, List.map_nil, List.sum_cons, List.sum_nil,
      List.count_cons]
    cases kind <;> simp <;> omega

namespace Records

/-- The total is the number of ops that were executed. -/
theorem total_eq (h : profile.Records kinds traces) : profile.total = kinds.length := by
  rw [← profile.sum_counts, ← sum_map_count_all, funext h.count_eq]

/-- A trace is counted as often as it occurs. -/
theorem traceCount_eq (h : profile.Records kinds traces) (trace : String) :
    profile.traceCount trace = traces.count trace := by
  rw [traceCount, Std.HashMap.getD_eq_getD_getElem?, h.getElem?_traces]
  split
  · rfl
  · next hmem => rw [List.count_eq_zero_of_not_mem hmem, Option.getD_none]

/-- Each trace that was counted is listed with its count. -/
theorem mem_loopTraces_iff (h : profile.Records kinds traces) (trace : String) (n : Nat) :
    (trace, n) ∈ profile.loopTraces ↔ trace ∈ traces ∧ traces.count trace = n := by
  rw [loopTraces, List.mem_mergeSort, Std.HashMap.mem_toList_iff_getElem?_eq_some,
    h.getElem?_traces]
  by_cases hmem : trace ∈ traces
  · simp [hmem]
  · simp [hmem]

/-- The traces that are listed are those that occur. -/
theorem map_loopTraces_perm (h : profile.Records kinds traces) :
    (profile.loopTraces.map (·.1)).Perm traces.dedup := by
  rw [List.perm_ext_iff_of_nodup profile.nodup_loopTraces traces.nodup_dedup]
  intro trace
  rw [List.mem_dedup, List.mem_map]
  constructor
  · rintro ⟨⟨trace, n⟩, hmem, rfl⟩
    exact ((h.mem_loopTraces_iff trace n).mp hmem).1
  · intro hmem
    exact ⟨(trace, traces.count trace), (h.mem_loopTraces_iff _ _).mpr ⟨hmem, rfl⟩, rfl⟩

/-- The counts of the traces add up to the number of traces that occur. -/
theorem sum_loopTraces (h : profile.Records kinds traces) :
    (profile.loopTraces.map (·.2)).sum = traces.length := by
  -- the listed count of a trace is the number of its occurrences
  have hcounts : profile.loopTraces.map (·.2) =
      (profile.loopTraces.map (·.1)).map fun trace => traces.count trace := by
    rw [List.map_map]
    apply List.map_congr_left
    rintro ⟨trace, n⟩ hmem
    exact ((h.mem_loopTraces_iff trace n).mp hmem).2.symm
  calc (profile.loopTraces.map (·.2)).sum
      = ((profile.loopTraces.map (·.1)).map fun trace => traces.count trace).sum := by rw [hcounts]
    _ = (traces.dedup.map fun trace => traces.count trace).sum :=
      (h.map_loopTraces_perm.map _).sum_eq
    _ = traces.length := List.sum_map_count_dedup_eq_length traces

/-- A profile that has counted a trace for each loop end reports as it should. -/
theorem reports (h : profile.Records kinds traces)
    (hends : kinds.count .jumpIfNotZero = traces.length) : profile.Reports := by
  refine ⟨?_, profile.sum_counts, fun trace n => ?_, profile.nodup_loopTraces,
    profile.pairwise_loopTraces⟩
  · rw [h.sum_loopTraces, h.count_eq, hends]
  · rw [h.mem_loopTraces_iff, h.traceCount_eq]
    constructor
    · rintro ⟨hmem, rfl⟩
      exact ⟨rfl, List.count_pos_iff.mpr hmem⟩
    · rintro ⟨rfl, hpos⟩
      exact ⟨List.count_pos_iff.mp hpos, rfl⟩

end Records

end Profile

end TapeLang

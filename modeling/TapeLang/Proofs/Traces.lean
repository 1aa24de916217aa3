import Mathlib.Data.List.DropRight
import TapeLang.Proofs.Consistency
import TapeLang.Proofs.Loops
import TapeLang.Proofs.Profiles
import TapeLang.Proofs.Specialization

/-!
# Traces of runs

A profile keeps the trace since the last jump, and the trace survives the end of a run. So what is
counted at a loop end might depend on all that was executed before. In a stream that passes its
check it does not: a loop end stands behind a jump, every jump leads behind a jump, and from there
on execution is straight. What a loop end contributes is then seen from the stream alone, and the
profiles of runs add up.

## Main definitions

* `Stream.Linked`: what the check of a stream says about the targets of its jumps.
* `Bytecode.bodyText`: the text of the ops since the last jump before a position.
* `Job`, `Job.profileAll`: runs, and the profile that they collect together.
* `Job.kinds`, `Job.bodies`: the kinds of the ops that a run executes, and the texts before the loop
  ends that it executes.

## Main results

* `Stream.linked_of_validate`: the targets of the jumps of a stream that passes its check.
* `Bytecode.records_of_runObserved`: what a run adds to any profile.
* `Job.profiles_add_up`: the profile of runs is the sum of their own profiles.
-/

namespace TapeLang

/-! ### Streams that pass their check -/

namespace Stream

/-- The target of a jump is a jump of the other kind. That of a loop start jumps back, and that of a
loop end stands before it. -/
def Linked (ops : Array Op) (index : Nat) : Op → Prop
  | .jumpIfZero target => ops[target]? = some (.jumpIfNotZero index)
  | .jumpIfNotZero target => target < index ∧ ∃ other, ops[target]? = some (.jumpIfZero other)
  | _ => True

variable {ops : Array Op} {stream : Stream}

/-- In a stream that passes its check every jump is linked. -/
theorem linked_of_validate (h : stream.validate = .ok ()) {index : Nat} {op : Op}
    (hop : stream.ops[index]? = some op) : Linked stream.ops index op := by
  have hconsistent := validate_eq_ok_iff.mp h
  cases op with
  | jumpIfZero target => exact hconsistent.jumpBack hop
  | jumpIfNotZero target =>
    have hpartners := hconsistent.loopEnd index target hop
    obtain ⟨start, hstart, hside⟩ := Option.bind_eq_some_iff.mp hpartners.opening_eq
    obtain ⟨other, rfl⟩ := Op.exists_of_opening hside
    exact ⟨hpartners.lt, other, hstart⟩
  | _ => trivial

end Stream

/-! ### The text before a position -/

namespace Bytecode

/-- The ops since the last jump before a position. -/
def straightBefore (ops : Array Op) (position : Nat) : List Op :=
  (ops.toList.take position).rtakeWhile fun op => !op.isJump

/-- The text of the ops since the last jump before a position. -/
def bodyText (ops : Array Op) (position : Nat) : String :=
  String.join ((straightBefore ops position).map Profile.traceText)

variable {ops : Array Op} {position : Nat} {op : Op}

/-- Up to the next position there is one op more. -/
theorem take_succ (hop : ops[position]? = some op) :
    ops.toList.take (position + 1) = ops.toList.take position ++ [op] := by
  rw [List.take_add_one, Array.getElem?_toList, hop]
  rfl

/-- Behind a jump no text has been collected. -/
theorem bodyText_of_isJump (hop : ops[position]? = some op) (hjump : op.isJump = true) :
    bodyText ops (position + 1) = "" := by
  rw [bodyText, straightBefore, take_succ hop, List.rtakeWhile_concat_neg _ _ _ (by simp [hjump])]
  rfl

/-- Behind any other op there is its text as well. -/
theorem bodyText_of_not_isJump (hop : ops[position]? = some op) (hjump : op.isJump = false) :
    bodyText ops (position + 1) = bodyText ops position ++ Profile.traceText op := by
  rw [bodyText, straightBefore, take_succ hop, List.rtakeWhile_concat_pos _ _ _ (by simp [hjump]),
    List.map_append, String.join_append, List.map_singleton]
  rfl

/-- A jump stands before the position. -/
def BehindJump (ops : Array Op) (position : Nat) : Prop :=
  ∃ index < position, ∃ op, ops[index]? = some op ∧ op.isJump = true

/-- The ops since the last jump are those that stand between it and the position. -/
theorem straightBefore_eq {index : Nat} (hlt : index < position) (hop : ops[index]? = some op)
    (hjump : op.isJump = true)
    (hstraight : ∀ other ∈ (ops.toList.take position).drop (index + 1), other.isJump = false) :
    straightBefore ops position = (ops.toList.take position).drop (index + 1) := by
  -- the jump parts the ops before the position into those before and those after it
  have hsplit : ops.toList.take position =
      ops.toList.take index ++ [op] ++ (ops.toList.take position).drop (index + 1) := by
    rw [← take_succ hop]
    conv_lhs => rw [← List.take_append_drop (index + 1) (ops.toList.take position)]
    rw [List.take_take, min_eq_left (by omega)]
  generalize (ops.toList.take position).drop (index + 1) = later at hsplit hstraight ⊢
  rw [straightBefore, hsplit, List.rtakeWhile, List.reverse_append, List.takeWhile_append_of_pos]
  · simp [hjump]
  · intro other hmem
    simp [hstraight other (List.mem_reverse.mp hmem)]

/-- A position is behind a jump only if the one before it is, or a jump stands there. -/
theorem BehindJump.of_succ (h : BehindJump ops (position + 1)) (hop : ops[position]? = some op)
    (hjump : op.isJump = false) : BehindJump ops position := by
  obtain ⟨index, hlt, other, hother, hisJump⟩ := h
  -- the jump is not the op that has just been passed
  have hne : index ≠ position := by
    rintro rfl
    rw [hop] at hother
    cases hother
    rw [hjump] at hisJump
    cases hisJump
  exact ⟨index, by omega, other, hother, hisJump⟩

/-- Of the jumps before a position one is the nearest, and straight ops follow it. -/
theorem BehindJump.exists_nearest (h : BehindJump ops position) (hle : position ≤ ops.size) :
    ∃ index < position, (∃ op, ops[index]? = some op ∧ op.isJump = true) ∧
      straightBefore ops position = (ops.toList.take position).drop (index + 1) ∧
      ∀ op ∈ straightBefore ops position, op.isJump = false := by
  -- by induction on the position: the op before it is the nearest jump, or the nearest one is the
  -- same as before
  induction position with
  | zero =>
    obtain ⟨index, hlt, -⟩ := h
    omega
  | succ position ih =>
    obtain ⟨op, hop⟩ : ∃ op, ops[position]? = some op := ⟨_, Array.getElem?_eq_getElem hle⟩
    cases hjump : op.isJump with
    | true =>
      have hempty : (ops.toList.take (position + 1)).drop (position + 1) = [] := by simp
      have hstraight := straightBefore_eq (Nat.lt_succ_self position) hop hjump (by simp)
      refine ⟨position, Nat.lt_succ_self position, ⟨op, hop, hjump⟩, hstraight, ?_⟩
      rw [hstraight, hempty]
      simp
    | false =>
      obtain ⟨index, hlt, hindex, hstraight, hall⟩ := ih (h.of_succ hop hjump) (by omega)
      have hmore : straightBefore ops (position + 1) = straightBefore ops position ++ [op] := by
        rw [straightBefore, take_succ hop, List.rtakeWhile_concat_pos _ _ _ (by simp [hjump])]
        rfl
      refine ⟨index, by omega, hindex, ?_, ?_⟩
      · rw [hmore, hstraight, take_succ hop, List.drop_append_of_le_length]
        rw [List.length_take, Array.length_toList]
        omega
      · rw [hmore]
        intro other hmem
        rcases List.mem_append.mp hmem with hmem | hmem
        · exact hall other hmem
        · rwa [List.mem_singleton.mp hmem]

/-! ### What a run adds to a profile -/

/-- The text before a loop end. -/
def bodyAt? (ops : Array Op) (config : Config) : Option String :=
  match ops[config.position]? with
  | some (.jumpIfNotZero _) => some (bodyText ops config.position)
  | _ => none

/-- The texts before the loop ends at which a run was. -/
def bodiesOf (ops : Array Op) (visited : List Config) : List String :=
  visited.filterMap (bodyAt? ops)

/-- The first configuration of a run adds its body, if it is at a loop end. -/
theorem bodiesOf_cons (ops : Array Op) (config : Config) (visited : List Config) :
    bodiesOf ops (config :: visited) = bodiesOf ops [config] ++ bodiesOf ops visited := by
  rw [bodiesOf, ← List.singleton_append, List.filterMap_append]
  rfl

/-- Behind a jump the current trace is the text since the last jump. Before the first jump it may be
left over from other runs. -/
def Current (ops : Array Op) (position : Nat) (profile : Profile) : Prop :=
  BehindJump ops position → profile.current = bodyText ops position

variable {config next : Config} {profile : Profile} {kinds : List Op.Kind} {bodies : List String}

/-- No jump stands before the first op. -/
theorem current_zero (ops : Array Op) (profile : Profile) : Current ops 0 profile := by
  rintro ⟨index, hlt, -⟩
  omega

/-- An op that is no jump is followed by the next one. -/
theorem position_of_step_of_not_isJump {size : Nat} (hjump : op.isJump = false)
    (hstep : step size op config = .done next) : next.position = config.position + 1 := by
  have hside : op.side = none := by simpa [Op.isJump] using hjump
  cases stepsTo_of_eq hstep with
  | acted => rfl
  | passed hne => exact absurd hside hne
  | taken htakes =>
    rcases htakes with ⟨rfl, -⟩ | ⟨rfl, -⟩
    · cases hside
    · cases hside

/-- A jump that is linked leads behind a jump, whether it is taken or not. -/
theorem exists_jump_of_step (hlinked : Stream.Linked ops config.position op)
    (hop : ops[config.position]? = some op) (hjump : op.isJump = true)
    (hstep : step ops.size op config = .done next) :
    ∃ index other, next.position = index + 1 ∧ ops[index]? = some other ∧ other.isJump = true := by
  cases stepsTo_of_eq hstep with
  | acted hside => simp [Op.isJump, hside] at hjump
  | passed => exact ⟨config.position, op, rfl, hop, hjump⟩
  | taken htakes =>
    -- the target is the jump at the other end of the loop
    rcases htakes with ⟨rfl, -⟩ | ⟨rfl, -⟩
    · exact ⟨_, _, rfl, hlinked, rfl⟩
    · obtain ⟨-, other, hother⟩ := hlinked
      exact ⟨_, _, rfl, hother, rfl⟩

/-- A step that recorded its op keeps the trace current. -/
theorem current_of_step (hlinked : Stream.Linked ops config.position op)
    (hop : ops[config.position]? = some op) (hcurrent : Current ops config.position profile)
    (hstep : step ops.size op config = .done next) :
    Current ops next.position (profile.record op) := by
  intro hbehind
  cases hjump : op.isJump with
  | false =>
    rw [position_of_step_of_not_isJump hjump hstep] at hbehind ⊢
    rw [Profile.current_record_of_not_isJump profile hjump, bodyText_of_not_isJump hop hjump,
      hcurrent (hbehind.of_succ hop hjump)]
  | true =>
    -- wherever the jump leads, the text starts anew on both sides
    obtain ⟨index, other, hnext, hother, hisJump⟩ := exists_jump_of_step hlinked hop hjump hstep
    rw [Profile.current_record_of_isJump profile hjump, hnext, bodyText_of_isJump hother hisJump]

/-- What an op adds to what a profile has counted. -/
theorem records_record (hlinked : Stream.Linked ops config.position op)
    (hop : ops[config.position]? = some op) (hcurrent : Current ops config.position profile)
    (h : profile.Records kinds bodies) :
    (profile.record op).Records (kinds ++ kindsOf ops [config])
      (bodies ++ bodiesOf ops [config]) := by
  have hkinds : kindsOf ops [config] = [op.kind] := by simp [kindsOf, hop]
  rw [hkinds]
  by_cases hend : op.kind = .jumpIfNotZero
  · cases op with
    | jumpIfNotZero target =>
      -- the target stands before the loop end, so the trace is current
      obtain ⟨hlt, other, hother⟩ := hlinked
      have hbodies : bodiesOf ops [config] = [profile.current] := by
        rw [hcurrent ⟨target, hlt, _, hother, rfl⟩]
        simp [bodiesOf, bodyAt?, hop]
      rw [hbodies]
      exact h.record_loopEnd target
    | _ => cases hend
  · have hbodies : bodiesOf ops [config] = [] := by
      cases op with
      | jumpIfNotZero target => exact absurd rfl hend
      | _ => simp [bodiesOf, bodyAt?, hop]
    rw [hbodies, List.append_nil]
    exact h.record_plain hend

/-- A run adds the kinds and the bodies of its ops to what a profile has counted, whatever is left
of other runs in the profile. -/
theorem records_of_runObserved
    (hlinked : ∀ index op, ops[index]? = some op → Stream.Linked ops index op) {fuel : Nat}
    {final : Config × Profile} (hcurrent : Current ops config.position profile)
    (h : profile.Records kinds bodies)
    (hrun : (runObserved Profile.record ops fuel (config, profile)).state? = some final) :
    final.2.Records (kinds ++ kindsOf ops (trailFrom ops fuel config))
      (bodies ++ bodiesOf ops (trailFrom ops fuel config)) := by
  unfold runObserved at hrun
  unfold trailFrom
  -- the trail grows at its front, and what has been counted grows at its end
  induction fuel generalizing config profile kinds bodies with
  | zero => cases hrun
  | succ fuel ih =>
    rw [walk_succ] at hrun
    rw [trail]
    dsimp only at hrun ⊢
    cases hop : ops[config.position]? with
    | none =>
      rw [hop] at hrun
      cases hrun
      simpa [kindsOf, bodiesOf] using h
    | some op =>
      rw [hop] at hrun
      have hrecords := records_record (hlinked _ op hop) hop hcurrent h
      simp only [observedStep] at hrun
      cases hstep : step ops.size op config with
      | done next =>
        rw [hstep] at hrun
        simp only [hstep]
        have hlater := ih (current_of_step (hlinked _ op hop) hop hcurrent hstep) hrecords hrun
        rw [List.append_assoc, List.append_assoc] at hlater
        rwa [kindsOf_cons, bodiesOf_cons]
      | failed error stopped =>
        rw [hstep] at hrun
        simp only [hstep]
        cases hrun
        exact hrecords
      | unfinished =>
        rw [hstep] at hrun
        cases hrun

/-- A run was at as many loop ends as it has bodies. -/
theorem length_bodiesOf (ops : Array Op) (visited : List Config) :
    (kindsOf ops visited).count .jumpIfNotZero = (bodiesOf ops visited).length := by
  induction visited with
  | nil => rfl
  | cons config visited ih =>
    rw [kindsOf_cons, bodiesOf_cons, List.count_append, List.length_append, ih]
    congr 1
    cases hop : ops[config.position]? with
    | none => simp [kindsOf, bodiesOf, bodyAt?, hop]
    | some op => cases op <;> simp [kindsOf, bodiesOf, bodyAt?, hop, Op.kind]

end Bytecode

/-! ### The profile of several runs -/

/-- A run of a stream on a machine. -/
structure Job where
  /-- The stream. -/
  stream : Stream
  /-- The fuel of the run. -/
  fuel : Nat
  /-- The machine. -/
  machine : Machine

namespace Job

/-- The profile after the run, if the run ends. It may have counted other runs before. -/
def profileFrom (profile : Profile) (job : Job) : Option Profile :=
  (Bytecode.runProfiled job.stream.ops job.fuel job.machine profile).state?.map (·.2)

/-- The profile after some runs, one after another, if all of them end. -/
def profileAll (profile : Profile) (jobs : List Job) : Option Profile :=
  jobs.foldlM profileFrom profile

/-- The profile of the run alone; no ops are counted if the run does not end. -/
def ownProfile (job : Job) : Profile :=
  (job.profileFrom .empty).getD .empty

/-- The configurations in which the run executes an op. -/
def visited (job : Job) : List Config :=
  Bytecode.trailFrom job.stream.ops job.fuel ⟨0, job.machine⟩

/-- The kinds of the ops that the run executes. -/
def kinds (job : Job) : List Op.Kind :=
  Bytecode.kindsOf job.stream.ops job.visited

/-- The texts before the loop ends that the run executes. -/
def bodies (job : Job) : List String :=
  Bytecode.bodiesOf job.stream.ops job.visited

variable {job : Job} {jobs : List Job} {profile final : Profile} {kinds : List Op.Kind}
  {bodies : List String}

/-- What the run of a stream that passes its check adds to a profile. -/
theorem records_of_profileFrom (hvalid : job.stream.validate = .ok ())
    (h : profile.Records kinds bodies) (hfinal : job.profileFrom profile = some final) :
    final.Records (kinds ++ job.kinds) (bodies ++ job.bodies) := by
  obtain ⟨⟨machine, final⟩, hrun, rfl⟩ := Option.map_eq_some_iff.mp hfinal
  rw [Bytecode.runProfiled] at hrun
  cases hobserved :
      Bytecode.runObserved Profile.record job.stream.ops job.fuel (⟨0, job.machine⟩, profile) with
  | unfinished =>
    rw [hobserved] at hrun
    cases hrun
  | _ =>
    rw [hobserved] at hrun
    cases hrun
    exact Bytecode.records_of_runObserved (fun index op => Stream.linked_of_validate hvalid)
      (Bytecode.current_zero _ _) h (by rw [hobserved]; rfl)

/-- What runs of streams that pass their checks add to a profile. -/
theorem records_of_profileAll (hvalid : ∀ job ∈ jobs, job.stream.validate = .ok ())
    (h : profile.Records kinds bodies) (hfinal : profileAll profile jobs = some final) :
    final.Records (kinds ++ jobs.flatMap Job.kinds) (bodies ++ jobs.flatMap Job.bodies) := by
  unfold profileAll at hfinal
  induction jobs generalizing profile kinds bodies with
  | nil =>
    cases hfinal
    simpa using h
  | cons job jobs ih =>
    obtain ⟨next, hnext, hlater⟩ := Option.bind_eq_some_iff.mp hfinal
    have hrecords := records_of_profileFrom (hvalid job List.mem_cons_self) h hnext
    have hall := ih (fun job hmem => hvalid job (List.mem_cons_of_mem _ hmem)) hrecords hlater
    rwa [List.append_assoc, List.append_assoc] at hall

/-- Whether a run ends does not depend on the profile. -/
theorem exists_profileFrom (h : job.profileFrom profile = some final) (other : Profile) :
    ∃ own, job.profileFrom other = some own := by
  have hrun := Bytecode.map_runProfiled job.stream.ops job.fuel job.machine
  obtain ⟨state, hstate, -⟩ := Option.map_eq_some_iff.mp h
  have hfirst := hrun profile
  rw [← hrun other] at hfirst
  rw [profileFrom]
  cases hother : Bytecode.runProfiled job.stream.ops job.fuel job.machine other with
  | done state => exact ⟨state.2, rfl⟩
  | failed error state => exact ⟨state.2, rfl⟩
  | unfinished =>
    rw [hother] at hfirst
    cases hprofile : Bytecode.runProfiled job.stream.ops job.fuel job.machine profile with
    | unfinished =>
      rw [hprofile] at hstate
      cases hstate
    | _ =>
      rw [hprofile] at hfirst
      cases hfirst

/-- Each of several runs that end has a profile of its own. -/
theorem profileFrom_empty (hfinal : profileAll profile jobs = some final) :
    ∀ job ∈ jobs, job.profileFrom .empty = some job.ownProfile := by
  unfold profileAll at hfinal
  induction jobs generalizing profile with
  | nil => simp
  | cons job jobs ih =>
    obtain ⟨next, hnext, hlater⟩ := Option.bind_eq_some_iff.mp hfinal
    refine List.forall_mem_cons.mpr ⟨?_, ih hlater⟩
    obtain ⟨own, hown⟩ := exists_profileFrom hnext .empty
    rw [ownProfile, hown, Option.getD_some]

/-- What the profile of a single run says about the run. -/
structure Counted (job : Job) : Prop where
  /-- The run has a profile of its own. -/
  profileFrom_eq : job.profileFrom .empty = some job.ownProfile
  /-- Each kind is counted as often as the run executes an op of it. -/
  count_eq : ∀ kind, job.ownProfile.count kind = job.kinds.count kind
  /-- Each trace is counted as often as the run executes a loop end with this text before it. -/
  traceCount_eq : ∀ trace, job.ownProfile.traceCount trace = job.bodies.count trace
  /-- The text before a loop end is that of the ops between it and the nearest jump before it. -/
  nearest : ∀ position target, job.stream.ops[position]? = some (.jumpIfNotZero target) →
    ∃ index < position, (∃ op, job.stream.ops[index]? = some op ∧ op.isJump = true) ∧
      Bytecode.straightBefore job.stream.ops position =
        (job.stream.ops.toList.take position).drop (index + 1) ∧
      ∀ op ∈ Bytecode.straightBefore job.stream.ops position, op.isJump = false
  /-- The reports of the profile are in order. -/
  reports : job.ownProfile.Reports
  /-- With or without a profile, the run is the same. -/
  silent : ∀ profile,
    (Bytecode.runProfiled job.stream.ops job.fuel job.machine profile).map (·.1) =
      Bytecode.run job.stream.ops job.fuel job.machine

/-- What the profile of a single run says about the run, if its stream passes its check. -/
theorem records_ownProfile (hvalid : job.stream.validate = .ok ())
    (hown : job.profileFrom .empty = some job.ownProfile) :
    job.ownProfile.Records job.kinds job.bodies :=
  records_of_profileFrom hvalid Profile.records_empty hown

/-- A run of a stream that passes its check has the profile that it should have. -/
theorem counted_of_validate (hvalid : job.stream.validate = .ok ())
    (hown : job.profileFrom .empty = some job.ownProfile) : job.Counted := by
  have hrecords := records_ownProfile hvalid hown
  refine ⟨hown, hrecords.count_eq, hrecords.traceCount_eq, ?_, ?_, ?_⟩
  · intro position target hop
    obtain ⟨hlt, other, hother⟩ := Stream.linked_of_validate hvalid hop
    have hbehind : Bytecode.BehindJump job.stream.ops position := ⟨target, hlt, _, hother, rfl⟩
    exact hbehind.exists_nearest (Array.getElem?_eq_some_iff.mp hop).1.le
  · exact hrecords.reports (Bytecode.length_bodiesOf job.stream.ops job.visited)
  · exact Bytecode.map_runProfiled job.stream.ops job.fuel job.machine

/-- Runs of streams that pass their checks, on any machines, collect one profile if they all end,
some of them perhaps with an error. All counts in it are the sums of the counts that the runs
collect on their own, and each run, on its own, counts each op that it executes and, at each loop
end that it executes, the text of the ops since the nearest jump before it. -/
theorem profiles_add_up (hvalid : ∀ job ∈ jobs, job.stream.validate = .ok ())
    (hends : profileAll .empty jobs = some final) :
    (∀ kind, final.count kind = (jobs.map (·.ownProfile.count kind)).sum) ∧
    (∀ trace, final.traceCount trace = (jobs.map (·.ownProfile.traceCount trace)).sum) ∧
    final.Reports ∧ ∀ job ∈ jobs, job.Counted := by
  have hown := profileFrom_empty hends
  have hall := records_of_profileAll hvalid Profile.records_empty hends
  rw [List.nil_append, List.nil_append] at hall
  refine ⟨fun kind => ?_, fun trace => ?_, hall.reports ?_, fun job hmem => ?_⟩
  · rw [hall.count_eq, List.count_flatMap]
    congr 1
    apply List.map_congr_left
    intro job hmem
    exact ((records_ownProfile (hvalid job hmem) (hown job hmem)).count_eq kind).symm
  · rw [hall.traceCount_eq, List.count_flatMap]
    congr 1
    apply List.map_congr_left
    intro job hmem
    exact ((records_ownProfile (hvalid job hmem) (hown job hmem)).traceCount_eq trace).symm
  · rw [List.count_flatMap, List.length_flatMap]
    congr 1
    apply List.map_congr_left
    intro job _
    exact Bytecode.length_bodiesOf job.stream.ops job.visited
  · exact counted_of_validate (hvalid job hmem) (hown job hmem)

/-- A run that moves to the left along a tape of ones, and off the tape in its second round. -/
def leaving : Job :=
  ⟨.ofOps #[.jumpIfZero 2, .backward 1, .jumpIfNotZero 0], 4,
    ⟨⟨Vector.replicate tapeSize 1, ⟨1, by decide⟩⟩, .ofBytes [], {}⟩⟩

/-- The run that leaves the tape is made twice. The trace that the first of the two runs has begun
when it fails is not continued in the second one. -/
theorem profiles_add_up_leavingTwice :
    ∃ final, profileAll .empty [leaving, leaving] = some final ∧
      leaving.stream.validate = .ok () ∧ leaving.bodies = ["<1"] ∧
      final.traceCount "<1" = 2 ∧ final.count .backward = 4 ∧ final.Reports := by
  have hvalid : leaving.stream.validate = .ok () := rfl
  have hbodies : leaving.bodies = ["<1"] := rfl
  have hkinds : leaving.kinds = [.jumpIfZero, .backward, .jumpIfNotZero, .backward] := rfl
  obtain ⟨final, hends⟩ : ∃ final, profileAll .empty [leaving, leaving] = some final := ⟨_, rfl⟩
  obtain ⟨hcounts, htraces, hreports, hcounted⟩ :=
    profiles_add_up (by simp [hvalid]) hends
  have hleaving := hcounted leaving List.mem_cons_self
  refine ⟨final, hends, hvalid, hbodies, ?_, ?_, hreports⟩
  · rw [htraces]
    simp [hleaving.traceCount_eq, hbodies]
  · rw [hcounts]
    simp [hleaving.count_eq, hkinds]

end Job

end TapeLang

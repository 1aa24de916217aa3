import TapeLang.Proofs.Native.Acceptance

/-!
# Why code is refused

What the template generator reports when it fails. It makes one pass over the ops, and stops at the
first one whose displacement is out of reach, or that ends a loop where none is open. If it comes to
the end, it goes back to the branches that wait, in the order in which they were emitted, and stops
at the first one whose label has no place. The labels that have no place then are those behind the
loops that are left open, and the branch of the outermost of these loops was emitted before the
branches to the labels behind the others. Where its field is, and which label it leads to, is read
off from the ops before it.

Besides, code may be too long for its branches. There is no other failure: no label gets a place
twice or without having been made, and no field outside the code is filled in.

## Main definitions

* `Emit.Fails`: a step of the generator fails at a stage.
* `RefusedWith`: what is said about ops for which there is no code.

## Main results

* `Emit.fails_stream_of_first`: code generation fails at the first op where it stops.
* `Emit.fails_stream_of_leftOpen`: code generation fails at the outermost loop that is left open.
* `templateCode_refuses`: when code generation fails, and what is reported then.
-/

namespace TapeLang

open X86

/-- What is reported of an op where code generation stops: that its displacement is out of reach, or
that the jump back ends no loop. -/
def Op.refusal : Op → CodegenError
  | .forward count | .backward count =>
    if count < 2 ^ 63 then .immediateTooWide count else .countTooLarge count
  | .scanUntilZero delta | .transferAndZero delta => .immediateTooWide delta.natAbs
  | _ => .unmatchedClose

/-- The causes that would be faults of the generator itself, and not of the ops. -/
def CodegenError.Internal : CodegenError → Prop
  | .unknownLabel _ | .labelBoundTwice _ | .patchPastEnd .. | .widePatchPastEnd .. => True
  | _ => False

/-- Nothing that is reported of an op is a fault of the generator. -/
theorem Op.not_internal_refusal (op : Op) : ¬ op.refusal.Internal := by
  cases op with
  | forward count | backward count =>
    rw [refusal]
    split <;> exact id
  | _ => exact id

/-- The position is the first one where code generation stops. -/
def FirstRefused (ops : Array Op) (position : Nat) : Prop :=
  RefusedAt ops position ∧ ∀ earlier < position, ¬ RefusedAt ops earlier

/-- Code generation does not stop at an op, and the position is that of the earliest loop start
whose loop is left open. -/
structure FirstLeftOpen (ops : Array Op) (position : Nat) : Prop where
  not_refused : ∀ position, ¬ RefusedAt ops position
  side_eq : Bracket.sideAt Op.side ops position = some .opening
  unpaired : ¬ Bracket.Paired Op.side ops position
  before : ∀ earlier < position, Bracket.sideAt Op.side ops earlier = some .opening →
    Bracket.Paired Op.side ops earlier

/-- The number of labels that are made for ops: two for each loop and each scan, and one for each
transfer. -/
theorem labelCount_eq (ops : List Op) : labelCount ops =
    2 * ops.countP (fun op => op matches .jumpIfZero _ | .scanUntilZero _) +
      ops.countP (fun op => op matches .transferAndZero _) := by
  induction ops with
  | nil => rfl
  | cons op ops ih =>
    rw [labelCount_cons, ih, List.countP_cons, List.countP_cons]
    cases op <;> simp [Op.labelCount] <;> omega

namespace Emit

/-- At a stage a step fails with a cause, unless code of this length is too long for its
branches. -/
def Fails {α : Type} (limit : Nat) (step : Emit α) (stage : Stage) (cause : CodegenError) : Prop :=
  ∀ emitter, At stage emitter →
    step.run emitter = .error cause ∨ TooFar limit (step.run emitter)

variable {limit : Nat} {stage mid : Stage} {cause : CodegenError} {ops : Array Op} {position : Nat}
  {descriptors : Descriptors} {item : Op}

/-- Nothing is done after a step that fails. -/
theorem Fails.bind {α β : Type} {first : Emit α} (h : Fails limit first stage cause)
    (second : α → Emit β) : Fails limit (first >>= second) stage cause := by
  intro emitter hat
  rw [StateT.run_bind]
  rcases h emitter hat with hrun | hfar
  · rw [hrun]
    exact .inl rfl
  · exact .inr (hfar.bind _)

/-- A step may fail after others. -/
theorem Advances.bind_fails {α β : Type} {first : Emit α} {second : α → Emit β} {value : α}
    (hfirst : Advances limit first stage value mid)
    (hsecond : Fails limit (second value) mid cause) :
    Fails limit (first >>= second) stage cause := by
  intro emitter hat
  rw [StateT.run_bind]
  rcases hfirst emitter hat with ⟨middle, hrun, hmid⟩ | hfar
  · rw [hrun]
    exact hsecond middle hmid
  · exact .inr (hfar.bind _)

/-- A distance that does not fit is no operand. -/
theorem fails_immediate {distance : Nat} (h : ¬ distance < 0x80000000) :
    Fails limit (immediate distance) stage (.immediateTooWide distance) := by
  rw [immediate, if_neg h]
  exact fun _ _ => .inl rfl

/-- A count that is no signed number is no operand either. -/
theorem fails_moveCount {count : Nat} (h : ¬ count < 0x8000000000000000) :
    Fails limit (moveCount count) stage (.countTooLarge count) := by
  rw [moveCount, if_neg h]
  exact fun _ _ => .inl rfl

/-- The code of an op whose displacement is out of reach cannot be generated. -/
theorem fails_op (hreach : ¬ item.InReach) :
    Fails limit (op descriptors item) stage item.refusal := by
  cases item with
  | forward count | backward count =>
    rw [Op.refusal]
    split
    · next hcount =>
      refine (advances_moveCount hcount).bind_fails (Fails.bind ?_ _)
      simpa using fails_immediate hreach
    · next hcount => exact (fails_moveCount hcount).bind _
  | scanUntilZero step =>
    -- the operand is looked at after the test of the current cell has been emitted
    refine advances_newLabel.bind_fails (advances_newLabel.bind_fails ?_)
    refine (advances_bind (.swap _ _ _)).bind_fails ?_
    refine (advances_insns 5 rfl).bind_fails ?_
    refine (advances_branch_ahead 2 rfl List.mem_cons_self).bind_fails ?_
    exact .bind (.bind (fails_immediate hreach) _) _
  | transferAndZero delta => exact advances_newLabel.bind_fails (.bind (fails_immediate hreach) _)
  | _ => exact absurd trivial hreach

/-- The code of a jump back cannot be generated where no loop is open. -/
theorem fails_closing (hside : item.side = some .closing) (hloops : stage.loops = []) :
    Fails limit (op descriptors item) stage item.refusal := by
  obtain ⟨target, rfl⟩ := Op.exists_of_closing hside
  refine .bind (fun emitter hat => .inl ?_) _
  rw [popLoop, run_get_bind, hat.loops, hloops]
  rfl

/-- The code of an op where code generation stops cannot be generated. -/
theorem fails_stageAt {loops : List Nat} (hopen : Bracket.OpenAt Op.side ops position loops)
    (hget : ops[position]? = some item) (hrefused : RefusedAt ops position) :
    Fails limit (op descriptors item) (stageAt ops position loops) item.refusal := by
  obtain ⟨op, hop, hrefused⟩ := hrefused
  obtain rfl := Option.some.inj (hget.symm.trans hop)
  rcases hrefused with hreach | ⟨hside, hunpaired⟩
  · exact fails_op hreach
  · cases loops with
    | nil => exact fails_closing hside rfl
    | cons innermost outer =>
      -- the jump would be the partner of the innermost open loop
      obtain ⟨hlt, hopening, hbalanced, -⟩ := hopen
      have hsideAt : Bracket.sideAt Op.side ops position = some .closing :=
        (Bracket.sideAt_of_get hget).trans hside
      exact absurd ⟨innermost, .inr ⟨hlt, hopening, hsideAt, hbalanced⟩⟩ hunpaired

/-- Code generation fails at the first op where it stops. -/
theorem fails_stream_of_first (hfirst : FirstRefused ops position)
    (hget : ops[position]? = some item) (hlimit : 23 + codeSize ops.toList ≤ limit) :
    Fails limit (stream descriptors ops) initial item.refusal := by
  have hlt := (Array.getElem?_eq_some_iff.mp hget).1
  obtain ⟨loops, hopen, hops⟩ :=
    @advances_take limit ops position descriptors (Nat.le_of_lt hlt) hfirst.2 (by omega)
  have hforM : Fails limit (forM ops.toList (op descriptors)) (stageAt ops 0 []) item.refusal := by
    rw [toList_eq_take_append hget, List.forM_append, List.forM_cons]
    exact hops.bind_fails ((fails_stageAt hopen hget hfirst.1).bind _)
  exact (advances_insns 8 rfl).bind_fails (hforM.bind _)

/-- The branches that wait cannot be filled in if a label has no place. The first branch to such a
label is reported. -/
theorem fails_resolveAll {before after : List Fixup} {fixup : Fixup}
    (hsplit : stage.fixups = before ++ fixup :: after)
    (hbefore : ∀ fixup ∈ before, stage.Fillable fixup)
    (hwaiting : fixup.label ∈ stage.waiting) (hlimit : stage.size ≤ limit) :
    Fails limit resolveAll stage (.unboundLabel fixup.offset fixup.label.index) := by
  intro emitter hat
  have hresolved : resolved emitter =
      (before ++ fixup :: after).foldlM (resolve emitter.places) emitter.buffer := by
    rw [resolved, hat.fixups, hsplit]
  have hresolve : ∀ buffer, resolve emitter.places buffer fixup =
      .error (.unboundLabel fixup.offset fixup.label.index) := by
    intro buffer
    simp only [resolve, (hat.waiting fixup.label).mpr hwaiting, Option.join_some]
  rw [resolveAll, run_get_bind, hresolved, List.foldlM_append]
  -- the branches in front of the first bad one are filled in, unless one is too long
  rcases resolve_cases_of_at hat hbefore hlimit with
    ⟨filled, hfilled, -⟩ | ⟨hlong, source, target, hfar⟩
  · rw [hfilled]
    refine .inl ?_
    show (liftM ((fixup :: after).foldlM (resolve emitter.places) filled) >>= _ : Emit Unit).run
      emitter = _
    rw [List.foldlM_cons, hresolve]
    rfl
  · rw [hfar]
    exact .inr ⟨hlong, source, target, rfl⟩

/-- The branches that wait in the end are those of the ops before a loop start, that of the loop
start, and those of the ops behind it. -/
theorem fixups_final {target : Nat} (hget : ops[position]? = some (.jumpIfZero target))
    (loops : List Nat) :
    (final ops loops).fixups = fixupsFrom 8 2 (ops.toList.take position) ++
      ⟨codeOffset ops position + 7, ⟨firstLabel ops position⟩⟩ ::
        fixupsFrom (codeOffset ops position + 11) (firstLabel ops position + 2)
          (ops.toList.drop (position + 1)) := by
  show fixupsFrom 8 2 (ops.toList.take ops.size) = _
  rw [← Array.length_toList, List.take_length]
  nth_rewrite 1 [toList_eq_take_append hget]
  rw [fixupsFrom_append]
  rfl

/-- The branches that were emitted before the outermost of the loops that are left open can be
filled in. -/
theorem fillable_final {inner : List Nat} {fixup : Fixup}
    (hopen : Bracket.OpenAt Op.side ops ops.size (inner ++ [position]))
    (hfixup : fixup ∈ fixupsFrom 8 2 (ops.toList.take position)) :
    (final ops (inner ++ [position])).Fillable fixup := by
  obtain ⟨hoffset, hlabel⟩ := of_mem_fixupsFrom (Nat.le_refl 2) hfixup
  obtain ⟨hlt, -⟩ := hopen.outermost
  constructor
  case inside =>
    have hcode : codeOffset ops position ≤ codeOffset ops ops.size := by
      rw [codeOffset_size]
      exact codeOffset_le ops position
    exact Nat.le_trans hoffset (Nat.le_trans hcode (Nat.le_add_right _ _))
  case made => exact Nat.lt_of_lt_of_le hlabel (firstLabel_mono (Nat.le_of_lt hlt))
  case placed =>
    -- their labels are older than those behind the open loops
    intro hwaiting
    obtain ⟨start, hstart, hequal⟩ := List.mem_map.mp hwaiting
    have hle := @firstLabel_mono ops _ _ (hopen.outermost_le hstart)
    rw [← hequal] at hlabel
    exact absurd hlabel (Nat.not_lt_of_le hle)

/-- Code generation that does not stop at an op fails at the outermost loop that is left open. -/
theorem fails_stream_of_leftOpen (hfirst : FirstLeftOpen ops position)
    (hlimit : 23 + codeSize ops.toList ≤ limit) :
    Fails limit (stream descriptors ops) initial
      (.unboundLabel (codeOffset ops position + 7) (firstLabel ops position)) := by
  obtain ⟨loops, hopen, hdraft⟩ := @advances_draft limit ops descriptors hfirst.not_refused hlimit
  obtain ⟨inner, rfl⟩ := hopen.exists_eq_concat hfirst.side_eq hfirst.unpaired hfirst.before
  obtain ⟨op, hget, hop⟩ := Option.bind_eq_some_iff.mp hfirst.side_eq
  obtain ⟨target, rfl⟩ := Op.exists_of_opening hop
  have hsize : (final ops (inner ++ [position])).size ≤ limit := by
    have hsize := codeOffset_size ops
    show codeOffset ops ops.size + 15 ≤ limit
    omega
  rw [stream_eq]
  refine hdraft.bind_fails (fails_resolveAll (fixups_final hget _)
    (fun _ hfixup => fillable_final hopen hfixup) ?_ hsize)
  exact List.mem_map_of_mem (List.mem_append_right _ (List.mem_singleton_self _))

end Emit

open Emit

/-- What is said, in words, about ops for which there is no code. -/
inductive RefusedWith (ops : Array Op) : String → Prop
  /-- Code generation stops at a move whose count is no signed 64-bit number. -/
  | countTooLarge {position count : Nat} (hfirst : FirstRefused ops position)
      (hop : ops[position]? = some (.forward count) ∨ ops[position]? = some (.backward count))
      (hcount : 2 ^ 63 ≤ count) : RefusedWith ops s!"count {count} too large"
  /-- Code generation stops at a move whose count does not fit an operand. -/
  | countTooWide {position count : Nat} (hfirst : FirstRefused ops position)
      (hop : ops[position]? = some (.forward count) ∨ ops[position]? = some (.backward count))
      (hcount : count < 2 ^ 63) :
      RefusedWith ops s!"displacement {count} does not fit in a 32-bit immediate"
  /-- Code generation stops at a scan or a transfer whose displacement does not fit an operand. -/
  | displacementTooWide {position : Nat} {delta : Int} (hfirst : FirstRefused ops position)
      (hop : ops[position]? = some (.scanUntilZero delta) ∨
        ops[position]? = some (.transferAndZero delta)) :
      RefusedWith ops s!"displacement {delta.natAbs} does not fit in a 32-bit immediate"
  /-- Code generation stops at a jump back that ends no loop. -/
  | unmatchedClose {position target : Nat} (hfirst : FirstRefused ops position)
      (hop : ops[position]? = some (.jumpIfNotZero target)) :
      RefusedWith ops "unmatched ']' in op stream"
  /-- Code generation goes through all ops, and a loop is left open. The exits have the first two
  labels, each loop and each scan makes two more, and each transfer one. -/
  | leftOpen {position offset label : Nat} (hfirst : FirstLeftOpen ops position)
      (hoffset : offset = codeOffset ops position + 7)
      (hlabel : label = 2 +
        2 * (ops.toList.take position).countP (fun op =>
          op matches .jumpIfZero _ | .scanUntilZero _) +
        (ops.toList.take position).countP (fun op => op matches .transferAndZero _)) :
      RefusedWith ops s!"branch at {offset} targets unbound label {label}"

variable {descriptors : Descriptors} {ops : Array Op}

/-- Code generation fails with what is said about the ops. -/
theorem RefusedWith.exists_fails {text : String} (h : RefusedWith ops text) :
    ∃ cause : CodegenError, ¬ cause.Internal ∧ cause.message = text ∧
      Fails (23 + codeSize ops.toList) (stream descriptors ops) initial cause := by
  have hlimit := Nat.le_refl (23 + codeSize ops.toList)
  -- each kind of refusal is that of the first op at fault, or of the first loop that is left open
  cases h with
  | countTooLarge hfirst hop hcount =>
    rcases hop with hget | hget
    all_goals
      refine ⟨_, Op.not_internal_refusal _, ?_, fails_stream_of_first hfirst hget hlimit⟩
      rw [Op.refusal, if_neg (Nat.not_lt_of_le hcount)]
      rfl
  | countTooWide hfirst hop hcount =>
    rcases hop with hget | hget
    all_goals
      refine ⟨_, Op.not_internal_refusal _, ?_, fails_stream_of_first hfirst hget hlimit⟩
      rw [Op.refusal, if_pos hcount]
      rfl
  | displacementTooWide hfirst hop =>
    rcases hop with hget | hget
    all_goals
      exact ⟨_, Op.not_internal_refusal _, rfl, fails_stream_of_first hfirst hget hlimit⟩
  | unmatchedClose hfirst hget =>
    exact ⟨_, Op.not_internal_refusal _, rfl, fails_stream_of_first hfirst hget hlimit⟩
  | @leftOpen position _ _ hfirst hoffset hlabel =>
    subst hoffset
    refine ⟨.unboundLabel (codeOffset ops position + 7) (firstLabel ops position), id, ?_,
      fails_stream_of_leftOpen hfirst hlimit⟩
    rw [hlabel, firstLabel, labelCount_eq, ← Nat.add_assoc]
    rfl

/-- Something is said about ops, or code generation succeeds. -/
theorem exists_refusedWith_or_advances (descriptors : Descriptors) (ops : Array Op) :
    (∃ text, RefusedWith ops text) ∨
      Advances (23 + codeSize ops.toList) (stream descriptors ops) initial ()
        { final ops [] with fixups := [] } := by
  classical
  by_cases hrefused : ∃ position, RefusedAt ops position
  · obtain ⟨position, hstops, hbefore⟩ := Nat.findX hrefused
    have hfirst : FirstRefused ops position := ⟨hstops, hbefore⟩
    obtain ⟨op, hget, hreason⟩ := hstops
    left
    cases op with
    | forward count =>
      rcases Nat.lt_or_ge count (2 ^ 63) with hcount | hcount
      · exact ⟨_, .countTooWide hfirst (.inl hget) hcount⟩
      · exact ⟨_, .countTooLarge hfirst (.inl hget) hcount⟩
    | backward count =>
      rcases Nat.lt_or_ge count (2 ^ 63) with hcount | hcount
      · exact ⟨_, .countTooWide hfirst (.inr hget) hcount⟩
      · exact ⟨_, .countTooLarge hfirst (.inr hget) hcount⟩
    | scanUntilZero delta => exact ⟨_, .displacementTooWide hfirst (.inl hget)⟩
    | transferAndZero delta => exact ⟨_, .displacementTooWide hfirst (.inr hget)⟩
    | jumpIfNotZero target => exact ⟨_, .unmatchedClose hfirst hget⟩
    | _ =>
      -- no other op is refused
      rcases hreason with hreach | ⟨hside, -⟩
      · exact absurd trivial hreach
      · cases hside
  have hrefused := not_exists.mp hrefused
  by_cases hopen : ∃ position, Bracket.sideAt Op.side ops position = some .opening ∧
      ¬ Bracket.Paired Op.side ops position
  · obtain ⟨position, ⟨hside, hunpaired⟩, hbefore⟩ := Nat.findX hopen
    refine .inl ⟨_, .leftOpen ⟨hrefused, hside, hunpaired, fun earlier hlt hopening => ?_⟩ rfl rfl⟩
    exact Classical.byContradiction fun hunpaired => hbefore earlier hlt ⟨hopening, hunpaired⟩
  · refine .inr (advances_stream hrefused (fun position hside => ?_) (Nat.le_refl _))
    exact Classical.byContradiction fun hunpaired => hopen ⟨position, hside, hunpaired⟩

/-- The code of ops may be too long for its branches, and one of them is reported. -/
def LeapsTooFar (descriptors : Descriptors) (ops : Array Op) : Prop :=
  0x80000000 ≤ 23 + codeSize ops.toList ∧ ∃ source target,
    templateCode descriptors ops = .error (.codegen (.branchTooFar source target))

/-- The error is what is said about the ops, unless a branch is too long. -/
theorem RefusedWith.templateCode_eq {text : String} (h : RefusedWith ops text) :
    (∃ cause : CodegenError, templateCode descriptors ops = .error (.codegen cause) ∧
      ¬ cause.Internal ∧ cause.message = text) ∨ LeapsTooFar descriptors ops := by
  obtain ⟨cause, hcause, hmessage, hfails⟩ := @h.exists_fails descriptors
  rcases hfails start at_start with hrun | ⟨hlong, source, target, hrun⟩
  · exact .inl ⟨cause, by rw [templateCode, hrun], hcause, hmessage⟩
  · exact .inr ⟨hlong, source, target, by rw [templateCode, hrun]⟩

/-- Code is generated, or something is said about the ops, or a branch is too long. -/
theorem templateCode_cases (descriptors : Descriptors) (ops : Array Op) :
    (∃ bytes, templateCode descriptors ops = .ok bytes) ∨
      (∃ (text : String) (cause : CodegenError), RefusedWith ops text ∧
        templateCode descriptors ops = .error (.codegen cause) ∧ ¬ cause.Internal ∧
        cause.message = text) ∨
      LeapsTooFar descriptors ops := by
  rcases exists_refusedWith_or_advances descriptors ops with ⟨text, htext⟩ | hadvances
  · rcases @htext.templateCode_eq descriptors with ⟨cause, hcause⟩ | hfar
    · exact .inr (.inl ⟨text, cause, htext, hcause⟩)
    · exact .inr (.inr hfar)
  · rcases hadvances start at_start with ⟨finished, hrun, -⟩ | ⟨hlong, source, target, hrun⟩
    · exact .inl ⟨finished.buffer.bytes, by rw [templateCode, hrun]⟩
    · exact .inr (.inr ⟨hlong, source, target, by rw [templateCode, hrun]⟩)

/-- When template code cannot be generated, and what is reported then. If the code is shorter than
2 GiB, it cannot be generated if and only if a displacement is out of reach or the jumps do not
match. The error then is a failure of code generation with the text that is said about the ops, and
no other text is said about them. Whatever the length of the code is, the error is no fault of the
generator itself. -/
theorem templateCode_refuses (descriptors : Descriptors) (ops : Array Op) :
    (23 + codeSize ops.toList < 2 ^ 31 →
      ((∃ error, templateCode descriptors ops = .error error) ↔
        (∃ op ∈ ops.toList, ¬ op.InReach) ∨ ¬ Bracket.Matched Op.side ops.toList) ∧
      (∀ error, templateCode descriptors ops = .error error → error.kind = .codegen ∧
        ∃ text, RefusedWith ops text ∧ error.message = "code generation failed: " ++ text) ∧
      ∀ text, RefusedWith ops text → ∃ error, templateCode descriptors ops = .error error ∧
        error.message = "code generation failed: " ++ text) ∧
    ∀ error, templateCode descriptors ops = .error error →
      ∃ cause, error = .codegen cause ∧ ¬ cause.Internal := by
  refine ⟨fun hsize => ?_, fun error herror => ?_⟩
  · have hnear : ¬ LeapsTooFar descriptors ops := fun hfar => Nat.not_lt_of_le hfar.1 hsize
    refine ⟨?_, fun error herror => ?_, fun text htext => ?_⟩
    · -- what is no failure is a success
      have hfails : (∃ error, templateCode descriptors ops = .error error) ↔
          ¬ ∃ bytes, templateCode descriptors ops = .ok bytes := by
        cases templateCode descriptors ops <;> simp
      rw [hfails, exists_templateCode_iff hsize, not_and_or, or_comm]
      simp only [not_forall, exists_prop]
    · rcases templateCode_cases descriptors ops with
        ⟨bytes, hbytes⟩ | ⟨text, cause, htext, hcause, -, rfl⟩ | hfar
      · rw [hbytes] at herror
        cases herror
      · rw [hcause] at herror
        cases herror
        exact ⟨rfl, cause.message, htext, rfl⟩
      · exact absurd hfar hnear
    · obtain ⟨cause, hcause, -, rfl⟩ := (htext.templateCode_eq).resolve_right hnear
      exact ⟨.codegen cause, hcause, rfl⟩
  · rcases templateCode_cases descriptors ops with
      ⟨bytes, hok⟩ | ⟨text, cause, -, hfailed, hinternal, -⟩ | ⟨-, source, target, hfailed⟩
    · rw [hok] at herror
      cases herror
    · rw [hfailed] at herror
      cases herror
      exact ⟨cause, rfl, hinternal⟩
    · rw [hfailed] at herror
      cases herror
      exact ⟨_, rfl, id⟩

/-- A loop that is left open behind a scan. The code of the loop start begins at offset 44, and the
scan has two labels before it. -/
theorem templateCode_refuses_leftOpen :
    23 + codeSize [.scanUntilZero 1, .jumpIfZero 0] < 2 ^ 31 ∧
    ¬ Bracket.Matched Op.side [.scanUntilZero 1, .jumpIfZero 0] ∧
    ∃ error, templateCode {} #[.scanUntilZero 1, .jumpIfZero 0] = .error error ∧
      error.message = "code generation failed: branch at 51 targets unbound label 4" := by
  have hsize : 23 + codeSize [.scanUntilZero 1, .jumpIfZero 0] < 2 ^ 31 := by decide
  have hopen : FirstLeftOpen #[.scanUntilZero 1, .jumpIfZero 0] 1 := by
    refine ⟨?_, rfl, ?_, fun earlier hearlier hside => ?_⟩
    · rintro (_ | _ | position) ⟨op, hget, hreason⟩
      · cases hget
        simp [Op.InReach, Op.side] at hreason
      · cases hget
        simp [Op.InReach, Op.side] at hreason
      · simp at hget
    · rw [Bracket.not_paired_iff_matchingClose rfl]
      simp [Bracket.matchingClose, Bracket.closeFrom]
    · obtain rfl := Nat.lt_one_iff.mp hearlier
      cases hside
  obtain ⟨-, -, herror⟩ := (templateCode_refuses {} #[.scanUntilZero 1, .jumpIfZero 0]).1 hsize
  refine ⟨hsize, ?_, herror _ (.leftOpen hopen rfl rfl)⟩
  rw [Bracket.matched_iff_openAfter]
  decide

end TapeLang

import TapeLang.JumpTable
import TapeLang.Proofs.Partners

/-!
# Resolved brackets

Resolving goes through a program from left to right. What has been resolved up to a position are
the pairs of partners whose loop start stands before it, so that a loop end is reached either with
its entry in the table, or without a partner.

## Main definitions

* `Program.FirstUnpaired`: the leftmost bracket of a program that has no partner.
* `JumpTable.Resolves`: the table that has been filled in up to a position.

## Main results

* `JumpTable.resolve_of_resolves`: what resolving one bracket comes to.
* `Program.resolveJumps_cases`: a program is resolved, or the leftmost bracket without a partner is
  the error.
-/

namespace TapeLang

namespace Program

/-- The partner of the bracket at a position, as the scans find it. -/
def partner? (program : Program) (position : Nat) : Option Nat :=
  match program.get? position with
  | some .loopStart => program.closeOf position
  | some .loopEnd => program.openOf position
  | _ => none

/-- Two brackets of a program are partners. -/
def Partners (program : Program) (opening closing : Nat) : Prop :=
  Bracket.Partners Instr.side program.instrs opening closing

/-- The bracket at a position of a program has a partner. -/
def Paired (program : Program) (position : Nat) : Prop :=
  Bracket.Paired Instr.side program.instrs position

/-- A bracket stands at a position of a program. -/
def BracketAt (program : Program) (position : Nat) : Prop :=
  (program.get? position).bind Instr.side ≠ none

/-- The bracket at a position has no partner, and all brackets before it have one. -/
structure FirstUnpaired (program : Program) (bracket : Instr) (position : Nat) : Prop where
  /-- The bracket stands at the position. -/
  get_eq : program.get? position = some bracket
  /-- It is a bracket. -/
  side_ne : bracket.side ≠ none
  /-- It has no partner. -/
  unpaired : ¬ program.Paired position
  /-- All brackets before it have one. -/
  before : ∀ earlier < position, program.BracketAt earlier → program.Paired earlier

/-- The loop that starts at a position, as start and end. -/
def loopAt? (program : Program) (position : Nat) : Option (Nat × Nat) :=
  match program.get? position with
  | some .loopStart => (program.closeOf position).map (position, ·)
  | _ => none

/-- The loops of a program that start before a position, in the order in which they start. -/
def pairsBefore (program : Program) (position : Nat) : List (Nat × Nat) :=
  (List.range position).filterMap program.loopAt?

variable {program : Program} {position partner opening closing : Nat}

/-- An instruction with a side is a bracket. -/
theorem bracketAt_of_get {instr : Instr} (hget : program.get? position = some instr)
    (hside : instr.side ≠ none) : program.BracketAt position := by
  rw [BracketAt, hget]
  exact hside

/-- Brackets stand in the program. -/
theorem BracketAt.lt_size (h : program.BracketAt position) : position < program.size := by
  obtain ⟨bracket, hside⟩ := Option.ne_none_iff_exists'.mp h
  exact Bracket.lt_size_of_sideAt hside

/-- The leftmost bracket without a partner is a bracket. -/
theorem FirstUnpaired.bracketAt {bracket : Instr} (h : program.FirstUnpaired bracket position) :
    program.BracketAt position := bracketAt_of_get h.get_eq h.side_ne

/-- The forward scan finds the partner of a loop start. -/
theorem closeOf_eq_some_iff (h : program.get? opening = some .loopStart) :
    program.closeOf opening = some closing ↔ program.Partners opening closing :=
  Bracket.matchingClose_eq_some_iff (Bracket.sideAt_of_get h)

/-- The backward scan finds the partner of a loop end. -/
theorem openOf_eq_some_iff (h : program.get? closing = some .loopEnd) :
    program.openOf closing = some opening ↔ program.Partners opening closing :=
  Bracket.matchingOpen_eq_some_iff (Bracket.sideAt_of_get h)

/-- A loop start stands where a loop starts. -/
theorem Partners.get_opening (h : program.Partners opening closing) :
    program.get? opening = some .loopStart := by
  obtain ⟨instr, hinstr, hside⟩ := Option.bind_eq_some_iff.mp h.opening_eq
  obtain rfl := Instr.eq_loopStart_of_side hside
  exact hinstr

/-- A loop end stands where a loop ends. -/
theorem Partners.get_closing (h : program.Partners opening closing) :
    program.get? closing = some .loopEnd := by
  obtain ⟨instr, hinstr, hside⟩ := Option.bind_eq_some_iff.mp h.closing_eq
  obtain rfl := Instr.eq_loopEnd_of_side hside
  exact hinstr

/-- The scans find the partner on either side. -/
theorem partner?_eq_some_iff :
    program.partner? position = some partner ↔
      program.Partners position partner ∨ program.Partners partner position := by
  constructor
  · intro h
    unfold partner? at h
    split at h
    · next hget => exact .inl ((closeOf_eq_some_iff hget).mp h)
    · next hget => exact .inr ((openOf_eq_some_iff hget).mp h)
    · cases h
  · rintro (h | h)
    · simp only [partner?, h.get_opening]
      exact (closeOf_eq_some_iff h.get_opening).mpr h
    · simp only [partner?, h.get_closing]
      exact (openOf_eq_some_iff h.get_closing).mpr h

/-- A bracket is paired if the scans find its partner. -/
theorem paired_iff_partner? :
    program.Paired position ↔ ∃ partner, program.partner? position = some partner :=
  exists_congr fun _ => partner?_eq_some_iff.symm

/-- The loop that starts at a position comes after those that start before. -/
theorem pairsBefore_succ (program : Program) (position : Nat) :
    program.pairsBefore (position + 1) =
      program.pairsBefore position ++ (program.loopAt? position).toList := by
  rw [pairsBefore, List.range_succ, List.filterMap_append, pairsBefore]
  cases h : program.loopAt? position <;> simp [h]

/-- No loop starts where no loop start stands. -/
theorem loopAt?_eq_none (h : program.get? position ≠ some .loopStart) :
    program.loopAt? position = none := by
  unfold loopAt?
  split
  · contradiction
  · rfl

/-- The loop of two partners starts at the one and ends at the other. -/
theorem Partners.loopAt?_eq (h : program.Partners opening closing) :
    program.loopAt? opening = some (opening, closing) := by
  simp only [loopAt?, h.get_opening, (closeOf_eq_some_iff h.get_opening).mpr h, Option.map_some]

/-- At most one bracket is the leftmost without a partner. -/
theorem FirstUnpaired.unique {bracket bracket' : Instr} {position' : Nat}
    (h : program.FirstUnpaired bracket position) (h' : program.FirstUnpaired bracket' position') :
    bracket = bracket' ∧ position = position' := by
  -- of two such brackets neither stands before the other
  have hposition : position = position' := by
    rcases Nat.lt_trichotomy position position' with hlt | heq | hgt
    · exact absurd (h'.before _ hlt h.bracketAt) h.unpaired
    · exact heq
    · exact absurd (h.before _ hgt h'.bracketAt) h'.unpaired
  subst hposition
  exact ⟨Option.some.inj (h.get_eq.symm.trans h'.get_eq), rfl⟩

end Program

namespace JumpTable

variable {program : Program} {table : JumpTable} {position opening closing : Nat}

/-- The table of a program in which the loops that start before a position are entered. -/
structure Resolves (table : JumpTable) (program : Program) (position : Nat) : Prop where
  /-- There is a place for each instruction. -/
  size_eq : table.targets.size = program.size
  /-- The entries lead from bracket to bracket. -/
  target_iff : ∀ bracket partner, table.target? bracket = some partner ↔
    program.partner? bracket = some partner ∧ min bracket partner < position
  /-- The loops are listed. -/
  pairs_eq : table.pairs.toList = program.pairsBefore position

/-- In a blank table there is no entry. -/
theorem target?_blank (size position : Nat) : (blank size).target? position = none := by
  simp only [blank, target?, Array.getElem?_replicate]
  split <;> rfl

/-- Brackets that are linked have each other as entries. -/
theorem target?_link (hopening : opening < table.targets.size)
    (hclosing : closing < table.targets.size) :
    (table.link opening closing).target? position =
      if position = closing then some opening
      else if position = opening then some closing
      else table.target? position := by
  simp only [target?, link, Array.getElem?_setIfInBounds, Array.size_setIfInBounds, hopening,
    hclosing, if_true, eq_comm (a := position)]
  split
  · rfl
  · split <;> rfl

/-- Before the first position nothing is resolved. -/
theorem resolves_blank (program : Program) : (blank program.size).Resolves program 0 where
  size_eq := by simp [blank]
  target_iff bracket partner := by simp [target?_blank]
  pairs_eq := rfl

/-- Nothing is to be entered for an item at which no loop starts. -/
theorem Resolves.next (h : table.Resolves program position)
    (hget : program.get? position ≠ some .loopStart) : table.Resolves program (position + 1) where
  size_eq := h.size_eq
  target_iff bracket partner := by
    rw [h.target_iff]
    refine and_congr_right fun hpartner => ?_
    -- the leftmost of two partners is a loop start, so it does not stand at the position
    have hne : min bracket partner ≠ position := by
      rintro rfl
      rcases Program.partner?_eq_some_iff.mp hpartner with hpartners | hpartners
      · have hlt := hpartners.lt
        rw [Nat.min_eq_left (Nat.le_of_lt hlt)] at hget
        exact hget hpartners.get_opening
      · have hlt := hpartners.lt
        rw [Nat.min_eq_right (Nat.le_of_lt hlt)] at hget
        exact hget hpartners.get_opening
    omega
  pairs_eq := by
    rw [Program.pairsBefore_succ, Program.loopAt?_eq_none hget, h.pairs_eq]
    exact (List.append_nil _).symm

/-- A loop that starts at a position is entered there. -/
theorem Resolves.link (h : table.Resolves program position)
    (hpartners : program.Partners position closing) :
    ((table.link position closing).addPair position closing).Resolves program (position + 1) where
  size_eq := by
    simp only [addPair, JumpTable.link, Array.size_setIfInBounds]
    exact h.size_eq
  target_iff bracket partner := by
    have hclosing : closing < table.targets.size := by
      rw [h.size_eq]
      exact Bracket.lt_size_of_sideAt hpartners.closing_eq
    have hposition := Nat.lt_trans hpartners.lt hclosing
    -- listing the loop leaves the entries alone
    have hlink : ((table.link position closing).addPair position closing).target? bracket =
        (table.link position closing).target? bracket := rfl
    rw [hlink, target?_link hposition hclosing]
    have hlt := hpartners.lt
    have hforward : program.partner? position = some closing :=
      Program.partner?_eq_some_iff.mpr (.inl hpartners)
    have hbackward : program.partner? closing = some position :=
      Program.partner?_eq_some_iff.mpr (.inr hpartners)
    by_cases hend : bracket = closing
    · subst hend
      rw [if_pos rfl, hbackward]
      refine ⟨fun heq => ⟨heq, ?_⟩, And.left⟩
      cases heq
      omega
    · rw [if_neg hend]
      by_cases hstart : bracket = position
      · subst hstart
        rw [if_pos rfl, hforward]
        refine ⟨fun heq => ⟨heq, ?_⟩, And.left⟩
        cases heq
        omega
      · rw [if_neg hstart, h.target_iff]
        refine and_congr_right fun hpartner => ?_
        -- only the two brackets of the new loop have the position as the leftmost of a pair
        have hne : min bracket partner ≠ position := by
          intro hmin
          rcases Program.partner?_eq_some_iff.mp hpartner with hother | hother
          · have := hother.lt
            omega
          · have hsame : partner = position := by
              have := hother.lt
              omega
            subst hsame
            exact hend (hpartners.closing_unique hother).symm
        omega
  pairs_eq := by
    have hpairs : ((table.link position closing).addPair position closing).pairs.toList =
        table.pairs.toList ++ [(position, closing)] := Array.toList_push
    rw [Program.pairsBefore_succ, hpartners.loopAt?_eq, hpairs, h.pairs_eq, Option.toList_some]

/-- Resolving the bracket at a position enters its loop, or there is no partner. The backward scan
from a loop end without an entry finds nothing. -/
theorem resolve_of_resolves (h : table.Resolves program position) :
    (∃ next, resolve program table position = .ok next ∧ next.Resolves program (position + 1) ∧
      (program.BracketAt position → program.Paired position)) ∨
    ∃ bracket, program.get? position = some bracket ∧ bracket.side ≠ none ∧
      ¬ program.Paired position ∧
      resolve program table position = .error (.unmatchedBracket bracket.toChar position) := by
  unfold resolve
  split
  · next hget =>
    have hside : Bracket.sideAt Instr.side program.instrs position = some .opening :=
      Bracket.sideAt_of_get hget
    cases hclose : program.closeOf position with
    | some closing =>
      have hpartners := (Program.closeOf_eq_some_iff hget).mp hclose
      exact .inl ⟨_, rfl, h.link hpartners, fun _ => ⟨closing, .inl hpartners⟩⟩
    | none =>
      exact .inr ⟨_, hget, by simp [Instr.side],
        (Bracket.not_paired_iff_matchingClose hside).mpr hclose, rfl⟩
  · next hget =>
    have hside : Bracket.sideAt Instr.side program.instrs position = some .closing :=
      Bracket.sideAt_of_get hget
    have hpartner : program.partner? position = program.openOf position := by
      simp only [Program.partner?, hget]
    cases hopen : program.openOf position with
    | some opening =>
      -- the loop starts further to the left, so that its entry has been made
      have hpartners := (Program.openOf_eq_some_iff hget).mp hopen
      have htarget : table.target? position = some opening := by
        rw [h.target_iff, hpartner, hopen]
        have := hpartners.lt
        exact ⟨rfl, by omega⟩
      rw [htarget]
      exact .inl ⟨table, rfl, h.next (by simp [hget]), fun _ => ⟨opening, .inr hpartners⟩⟩
    | none =>
      -- an entry would be the partner, which the backward scan would have found
      have htarget : table.target? position = none := by
        refine Option.eq_none_iff_forall_not_mem.mpr fun partner hmem => ?_
        have hsome := ((h.target_iff _ _).mp hmem).1
        rw [hpartner, hopen] at hsome
        cases hsome
      rw [htarget]
      exact .inr ⟨_, hget, by simp [Instr.side],
        (Bracket.not_paired_iff_matchingOpen hside).mpr hopen, rfl⟩
  · next hstart hend =>
    refine .inl ⟨table, rfl, h.next hstart, fun hbracket => absurd ?_ hbracket⟩
    cases hget : program.get? position with
    | none => rfl
    | some instr => cases instr <;> first | rfl | exact absurd hget hstart | exact absurd hget hend

end JumpTable

/-- One more position is gone through after those before it. -/
theorem foldlM_range_succ {σ : Type} (step : σ → Nat → Except Error σ) (state : σ)
    (position : Nat) : (List.range (position + 1)).foldlM step state =
      ((List.range position).foldlM step state).bind (step · position) := by
  rw [List.range_succ, List.foldlM_append]
  exact congrArg _ (funext fun _ => bind_pure _)

namespace Program

variable {program : Program}

/-- Resolving the first brackets of a program gives their table, or the leftmost bracket without a
partner. -/
theorem resolve_range (program : Program) (position : Nat) :
    (∃ table, (List.range position).foldlM (JumpTable.resolve program) (.blank program.size) =
        .ok table ∧ table.Resolves program position ∧
        ∀ earlier < position, program.BracketAt earlier → program.Paired earlier) ∨
    ∃ bracket first, program.FirstUnpaired bracket first ∧ first < position ∧
      (List.range position).foldlM (JumpTable.resolve program) (.blank program.size) =
        .error (.unmatchedBracket bracket.toChar first) := by
  -- either all brackets so far have partners, or the first that has none has ended the resolution
  induction position with
  | zero =>
    exact .inl ⟨_, rfl, JumpTable.resolves_blank program,
      fun _ hlt => absurd hlt (Nat.not_lt_zero _)⟩
  | succ position ih =>
    rw [foldlM_range_succ]
    rcases ih with ⟨table, hfold, hresolves, hpaired⟩ | ⟨bracket, first, hfirst, hlt, hfold⟩
    · rw [hfold]
      rcases JumpTable.resolve_of_resolves hresolves with
        ⟨next, hnext, hresolves', hpaired'⟩ | ⟨bracket, hget, hside, hunpaired, herror⟩
      · refine .inl ⟨next, hnext, hresolves', fun earlier hlt => ?_⟩
        rcases Nat.lt_succ_iff_lt_or_eq.mp hlt with hlt | rfl
        · exact hpaired earlier hlt
        · exact hpaired'
      · exact .inr ⟨bracket, position, ⟨hget, hside, hunpaired, hpaired⟩, Nat.lt_succ_self _,
          herror⟩
    · -- the error is kept, and so is its bracket the leftmost
      rw [hfold]
      exact .inr ⟨bracket, first, hfirst, Nat.lt_succ_of_lt hlt, rfl⟩

/-- A program is resolved, or the leftmost bracket without a partner is the error. -/
theorem resolveJumps_cases (program : Program) :
    (∃ table, program.resolveJumps = .ok table ∧ table.Resolves program program.size ∧
      ∀ position, program.BracketAt position → program.Paired position) ∨
    ∃ bracket position, program.FirstUnpaired bracket position ∧
      program.resolveJumps = .error (.unmatchedBracket bracket.toChar position) := by
  rcases program.resolve_range program.size with
    ⟨table, hfold, hresolves, hpaired⟩ | ⟨bracket, first, hfirst, -, hfold⟩
  · exact .inl ⟨table, hfold, hresolves,
      fun position hbracket => hpaired position hbracket.lt_size hbracket⟩
  · exact .inr ⟨bracket, first, hfirst, hfold⟩

/-- The leftmost bracket without a partner is the error of the resolver. -/
theorem FirstUnpaired.resolveJumps_eq {bracket : Instr} {position : Nat}
    (h : program.FirstUnpaired bracket position) :
    program.resolveJumps = .error (.unmatchedBracket bracket.toChar position) := by
  rcases program.resolveJumps_cases with
    ⟨table, -, -, hpaired⟩ | ⟨bracket', position', hfirst, herror⟩
  · exact absurd (hpaired position h.bracketAt) h.unpaired
  · obtain ⟨rfl, rfl⟩ := h.unique hfirst
    exact herror

/-- The brackets of a program that is resolved have their partners in the table. -/
theorem resolves_of_resolveJumps {table : JumpTable} (h : program.resolveJumps = .ok table) :
    table.Resolves program program.size ∧
      ∀ position, program.BracketAt position → program.Paired position := by
  rcases program.resolveJumps_cases with
    ⟨table', htable, hresolves⟩ | ⟨bracket, position, -, herror⟩
  · rw [h] at htable
    cases htable
    exact hresolves
  · rw [h] at herror
    cases herror

/-- The entries of a program that is resolved are the partners of its brackets. -/
theorem target?_of_resolveJumps {table : JumpTable} (h : program.resolveJumps = .ok table)
    (position : Nat) : table.target? position = program.partner? position := by
  refine Option.ext fun partner => ?_
  rw [(resolves_of_resolveJumps h).1.target_iff, and_iff_left_iff_imp, partner?_eq_some_iff]
  rintro (hpartners | hpartners)
  · have hsize := Bracket.lt_size_of_sideAt hpartners.opening_eq
    exact Nat.lt_of_le_of_lt (Nat.min_le_left _ _) hsize
  · have hsize := Bracket.lt_size_of_sideAt hpartners.closing_eq
    exact Nat.lt_of_le_of_lt (Nat.min_le_left _ _) hsize

end Program

end TapeLang

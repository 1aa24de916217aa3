import Mathlib
import TapeLang.Proofs.Compilation
import TapeLang.Proofs.Errors
import TapeLang.Proofs.Resolution

/-!
# Unmatched brackets

The compiler keeps a stack of open loops and fails at the first loop end that finds it empty, or
else at its bottom when the program is at its end. The resolver fails at the first bracket whose
scan runs off the program. Both fail at the leftmost bracket that has no partner, since a bracket
without a partner has only balanced brackets before it when it is the first.

## Main definitions

* `Bracket.OpenAt`: the loops that are open at a position, innermost first.

## Main results

* `Compilation.openAt_of_foldlM`: the open loops of a compilation are those that are open where it
  has come to.
* `Program.compile_cases`: a program compiles, or the leftmost bracket without a partner is the
  error.
* `Program.unmatched_agree`: compiler, resolver and scanning interpreter on unmatched brackets.
-/

namespace TapeLang

variable {α : Type} {side : α → Option Bracket} {items : Array α}

namespace Bracket

/-- The loops that are open at a position start at the positions that are listed, innermost first:
between one and the next, and behind the last, the brackets are balanced. -/
def OpenAt (side : α → Option Bracket) (items : Array α) : Nat → List Nat → Prop
  | position, [] => openBetween side items 0 position 0 = some 0
  | position, innermost :: outer =>
    innermost < position ∧ sideAt side items innermost = some .opening ∧
      openBetween side items (innermost + 1) position 0 = some 0 ∧
      OpenAt side items innermost outer

variable {position start opened innermost : Nat} {outer loops : List Nat}

/-- What is open behind an item, if nothing is open before it. -/
theorem openBetween_succ_of_balanced (hle : start ≤ position) (hsize : position < items.size)
    (h : openBetween side items start position opened = some opened) :
    openBetween side items start (position + 1) opened =
      pass opened (sideAt side items position) := by
  rw [openBetween_last hle hsize, h, Option.bind_some]

/-- Past an item that is no bracket the same loops are open. -/
theorem OpenAt.next (h : OpenAt side items position loops) (hsize : position < items.size)
    (hside : sideAt side items position = none) : OpenAt side items (position + 1) loops := by
  cases loops with
  | nil =>
    have hnext := openBetween_succ_of_balanced (Nat.zero_le _) hsize h
    rwa [hside] at hnext
  | cons innermost outer =>
    obtain ⟨hlt, hopening, hbalanced, houter⟩ := h
    have hnext := openBetween_succ_of_balanced hlt hsize hbalanced
    rw [hside] at hnext
    exact ⟨Nat.lt_succ_of_lt hlt, hopening, hnext, houter⟩

/-- Past a loop start its loop is open. -/
theorem OpenAt.opening (h : OpenAt side items position loops)
    (hside : sideAt side items position = some .opening) :
    OpenAt side items (position + 1) (position :: loops) :=
  ⟨Nat.lt_succ_self position, hside, openBetween_self _ _, h⟩

/-- Past a loop end the innermost loop is no longer open. -/
theorem OpenAt.closing (h : OpenAt side items position (innermost :: outer))
    (hside : sideAt side items position = some .closing) :
    OpenAt side items (position + 1) outer := by
  obtain ⟨hlt, hopening, hbalanced, houter⟩ := h
  have hsize := lt_size_of_sideAt hside
  have hsize' := lt_size_of_sideAt hopening
  -- the whole loop is balanced
  have hloop : openBetween side items innermost (position + 1) 0 = some 0 := by
    rw [openBetween_first (Nat.lt_succ_of_lt hlt) hsize', hopening]
    have hbody := openBetween_add hbalanced 1
    exact (openBetween_last hlt hsize 1).trans (by rw [hbody, hside]; rfl)
  -- it joins the balanced part in front of it, which begins behind the next open loop
  cases outer with
  | nil =>
    have hbefore : openBetween side items 0 innermost 0 = some 0 := houter
    show openBetween side items 0 (position + 1) 0 = some 0
    rw [openBetween_trans (Nat.zero_le innermost) (by omega), hbefore]
    exact hloop
  | cons next outer =>
    obtain ⟨hlt', hopening', hbalanced', houter⟩ := houter
    refine ⟨by omega, hopening', ?_, houter⟩
    rw [openBetween_trans hlt' (by omega), hbalanced']
    exact hloop

/-- A loop end has no partner where no loop is open. -/
theorem OpenAt.not_paired_closing (h : OpenAt side items position [])
    (hside : sideAt side items position = some .closing) : ¬ Paired side items position := by
  have hsize := lt_size_of_sideAt hside
  have hbefore : openBetween side items 0 position 0 = some 0 := h
  rw [not_paired_iff_matchingOpen hside, Option.eq_none_iff_forall_not_mem]
  intro opening hfound
  have hpartners := (matchingOpen_eq_some_iff hside).mp hfound
  have hlt := hpartners.lt
  -- the loop of the partner would be open
  rw [openBetween_trans (Nat.zero_le opening) (Nat.le_of_lt hlt)] at hbefore
  obtain ⟨opened, -, hrest⟩ := Option.bind_eq_some_iff.mp hbefore
  rw [openBetween_first hlt (Nat.lt_trans hlt hsize), hpartners.opening_eq] at hrest
  have hbetween := openBetween_add hpartners.balanced (opened + 1)
  rw [Nat.zero_add] at hbetween
  change openBetween side items (opening + 1) position (opened + 1) = some 0 at hrest
  rw [hbetween] at hrest
  cases hrest

/-- The outermost open loop: the brackets before it are balanced, and behind it as many loops are
open as there are further ones. -/
theorem OpenAt.outermost {outermost : Nat} (h : OpenAt side items position (loops ++ [outermost])) :
    outermost < position ∧ sideAt side items outermost = some .opening ∧
      OpenAt side items outermost [] ∧
      openBetween side items (outermost + 1) position 0 = some loops.length := by
  induction loops generalizing position with
  | nil =>
    obtain ⟨hlt, hopening, hbalanced, houter⟩ := h
    exact ⟨hlt, hopening, houter, hbalanced⟩
  | cons innermost loops ih =>
    obtain ⟨hlt, hopening, hbalanced, houter⟩ := h
    obtain ⟨hlt', hopening', hbefore, hbehind⟩ := ih houter
    refine ⟨Nat.lt_trans hlt' hlt, hopening', hbefore, ?_⟩
    rw [openBetween_trans hlt' (Nat.le_of_lt hlt), hbehind, Option.bind_some,
      openBetween_first hlt (lt_size_of_sideAt hopening), hopening, List.length_cons]
    have hbody := openBetween_add hbalanced (loops.length + 1)
    rwa [Nat.zero_add] at hbody

/-- An open loop starts at a loop start further back. -/
theorem OpenAt.of_mem (h : OpenAt side items position loops) (hmem : start ∈ loops) :
    start < position ∧ sideAt side items start = some .opening := by
  induction loops generalizing position with
  | nil => cases hmem
  | cons innermost outer ih =>
    obtain ⟨hlt, hopening, -, houter⟩ := h
    rcases List.mem_cons.mp hmem with rfl | hmem
    · exact ⟨hlt, hopening⟩
    · obtain ⟨hlt', hopening'⟩ := ih houter hmem
      exact ⟨Nat.lt_trans hlt' hlt, hopening'⟩

/-- The outermost open loop starts before the others. -/
theorem OpenAt.outermost_le {outermost : Nat}
    (h : OpenAt side items position (loops ++ [outermost])) (hmem : start ∈ loops ++ [outermost]) :
    outermost ≤ start := by
  induction loops generalizing position with
  | nil => exact Nat.le_of_eq (List.mem_singleton.mp hmem).symm
  | cons innermost loops ih =>
    obtain ⟨-, -, -, houter⟩ := h
    rcases List.mem_cons.mp hmem with rfl | hmem
    · exact Nat.le_of_lt (houter.of_mem (List.mem_append_right _ (List.mem_singleton_self _))).1
    · exact ih houter hmem

/-- A loop that is open at the end of a sequence has no partner. -/
theorem OpenAt.not_paired_outermost {outermost : Nat}
    (h : OpenAt side items items.size (loops ++ [outermost])) : ¬ Paired side items outermost := by
  obtain ⟨hlt, hopening, -, hbehind⟩ := h.outermost
  rw [not_paired_iff_matchingClose hopening, Option.eq_none_iff_forall_not_mem]
  intro closing hfound
  have hpartners := (matchingClose_eq_some_iff hopening).mp hfound
  have hsize := lt_size_of_sideAt hpartners.closing_eq
  -- the partner would end a loop that is not open behind the outermost
  rw [openBetween_trans hpartners.lt (Nat.le_of_lt hsize), hpartners.balanced, Option.bind_some,
    openBetween_first hsize hsize, hpartners.closing_eq] at hbehind
  cases hbehind

/-- The outermost loop that is open at the end of a sequence is the first one without a partner. -/
theorem OpenAt.exists_eq_concat (h : OpenAt side items items.size loops)
    (hside : sideAt side items position = some .opening) (hunpaired : ¬ Paired side items position)
    (hbefore : ∀ earlier < position, sideAt side items earlier = some .opening →
      Paired side items earlier) : ∃ inner, loops = inner ++ [position] := by
  have hbracket : sideAt side items position ≠ none := by simp [hside]
  obtain rfl | ⟨inner, outermost, rfl⟩ := List.eq_nil_or_concat' loops
  · -- if no loop is open at the end, all have partners
    exact absurd (paired_of_openBetween (Nat.le_refl _) h (Nat.zero_le _) (lt_size_of_sideAt hside)
      hbracket) hunpaired
  · obtain ⟨hlt, hopening, hbalanced, -⟩ := h.outermost
    have hle : position ≤ outermost := Nat.le_of_not_lt fun hlt =>
      h.not_paired_outermost (hbefore outermost hlt hopening)
    have hge : outermost ≤ position := Nat.le_of_not_lt fun hlt' =>
      hunpaired (paired_of_openBetween (Nat.le_of_lt hlt) hbalanced (Nat.zero_le _) hlt' hbracket)
    exact ⟨inner, by rw [Nat.le_antisymm hle hge]⟩

end Bracket

namespace Program

variable {program : Program} {position : Nat}

/-- The loops that are open at a position of a program. -/
def OpenAt (program : Program) (position : Nat) (loops : List Nat) : Prop :=
  Bracket.OpenAt Instr.side program.instrs position loops

/-- A program is balanced if no loop is open at its end. -/
theorem balanced_iff_openAt : program.Balanced ↔ program.OpenAt program.size [] := by
  have hwhole : Bracket.openBetween Instr.side program.instrs 0 program.size 0 =
      Bracket.openAfter Instr.side 0 program.instrs.toList := by
    rw [Bracket.openBetween, size, Array.extract_size]
  rw [balanced_iff_openAfter, ← hwhole]
  rfl

/-- Before a position where no loop is open every bracket has a partner. -/
theorem OpenAt.paired (h : program.OpenAt position []) (hsize : position ≤ program.size)
    {earlier : Nat} (hlt : earlier < position) (hbracket : program.BracketAt earlier) :
    program.Paired earlier :=
  Bracket.paired_of_openBetween hsize h (Nat.zero_le _) hlt hbracket

/-- The leftmost bracket without a partner, if no loop is open there. -/
theorem OpenAt.firstUnpaired {bracket : Instr} (h : program.OpenAt position [])
    (hget : program.get? position = some bracket) (hside : bracket.side ≠ none)
    (hunpaired : ¬ program.Paired position) : program.FirstUnpaired bracket position where
  get_eq := hget
  side_ne := hside
  unpaired := hunpaired
  before _ hlt hbracket :=
    h.paired (Nat.le_of_lt (Array.getElem?_eq_some_iff.mp hget).1) hlt hbracket

/-- A balanced program has a partner for each bracket. -/
theorem paired_of_balanced (h : program.Balanced) (hbracket : program.BracketAt position) :
    program.Paired position := by
  have hopen : program.OpenAt program.size [] := balanced_iff_openAt.mp h
  exact hopen.paired (Nat.le_refl _) hbracket.lt_size hbracket

/-- A balanced program has no bracket without a partner. -/
theorem FirstUnpaired.not_balanced {bracket : Instr} (h : program.FirstUnpaired bracket position) :
    ¬ program.Balanced := by
  intro hbalanced
  exact h.unpaired (paired_of_balanced hbalanced h.bracketAt)

/-- Past a run that is no bracket the same loops are open. -/
theorem OpenAt.run {run : Run} {loops : List Nat} (h : program.OpenAt position loops)
    (hrun : program.MaximalRunAt position run) :
    program.OpenAt (position + run.count) loops := by
  have hprefix : ∀ k ≤ run.count, program.OpenAt (position + k) loops := by
    intro k hk
    induction k with
    | zero => exact h
    | succ k ih =>
      have hget := hrun.get_eq k hk
      refine (ih (Nat.le_of_lt hk)).next (Array.getElem?_eq_some_iff.mp hget).1 ?_
      exact (Bracket.sideAt_of_get hget).trans hrun.side_eq
  exact hprefix run.count (Nat.le_refl _)

end Program

namespace Compilation

variable {options : CompileOptions} {program : Program} {state : Compilation}

/-- Compiling the runs of a program keeps track of the open loops, and fails at a loop end where no
loop is open. -/
theorem openAt_of_foldlM (options : CompileOptions) (before : List Run) {runs : List Run}
    (hruns : program.runs = before ++ runs)
    (hposition : state.position = (before.flatMap Run.expand).length)
    (hopen : program.OpenAt state.position (state.opened.map OpenLoop.position)) :
    (∃ final, runs.foldlM (step options) state = .ok final ∧
      program.OpenAt program.size (final.opened.map OpenLoop.position)) ∨
    ∃ position, runs.foldlM (step options) state = .error (.unmatchedBracket ']' position) ∧
      program.get? position = some .loopEnd ∧ program.OpenAt position [] := by
  induction runs generalizing before state with
  | nil =>
    refine .inl ⟨state, rfl, ?_⟩
    have hsize : state.position = program.size := by
      rw [hposition, ← List.append_nil before, ← hruns, Program.expand_runs, Array.length_toList,
        Program.size]
    rwa [← hsize]
  | cons run runs ih =>
    have hproper := program.proper_of_mem_runs run (by simp [hruns])
    have hruns' : program.runs = (before ++ [run]) ++ runs := by simpa using hruns
    have hlength : ((before ++ [run]).flatMap Run.expand).length = state.position + run.count := by
      rw [List.flatMap_append, List.length_append, ← hposition, List.flatMap_singleton,
        Run.length_expand]
    rw [List.foldlM_cons]
    cases hside : run.side with
    | none =>
      have hrun := Program.maximalRunAt_of_runs hruns hside
      rw [← hposition] at hrun
      rw [step_of_side_eq_none hside]
      exact @ih (state.emit run.op run.count) (before ++ [run]) hruns' hlength.symm (hopen.run hrun)
    | some bracket =>
      -- a run of brackets is a single bracket
      have hcount := hproper.bracket (by simp [hside])
      have hget := Program.get?_bracket_of_runs before hruns (by simp [hside])
      rw [← hposition] at hget
      have hsideAt : Bracket.sideAt Instr.side program.instrs state.position = some bracket :=
        (Bracket.sideAt_of_get hget).trans hside
      rw [hcount] at hlength
      cases bracket with
      | opening =>
        rw [step_of_opening hside]
        exact @ih state.openLoop (before ++ [run]) hruns' hlength.symm (hopen.opening hsideAt)
      | closing =>
        rw [step_of_closing hside]
        rw [Instr.eq_loopEnd_of_side hside] at hget
        obtain ⟨position, stream, opened⟩ := state
        cases opened with
        -- the stack is empty, so that no loop is open
        | nil => exact .inr ⟨position, rfl, hget, hopen⟩
        | cons innermost outer =>
          exact @ih ⟨position + 1, stream.closeLoop options innermost position, outer⟩
            (before ++ [run]) hruns' hlength.symm (hopen.closing hsideAt)

end Compilation

namespace Program

variable {program : Program}

/-- A program compiles, or the leftmost bracket without a partner is the error. -/
theorem compile_cases (options : CompileOptions) (program : Program) :
    (program.Balanced ∧ ∃ stream, program.compile options = .ok stream) ∨
    ∃ bracket position, program.FirstUnpaired bracket position ∧
      program.compile options = .error (.unmatchedBracket bracket.toChar position) := by
  have hstart : program.OpenAt Compilation.start.position
      (Compilation.start.opened.map OpenLoop.position) := Bracket.openBetween_self 0 0
  have hruns : program.runs = [] ++ program.runs := rfl
  rcases Compilation.openAt_of_foldlM options [] hruns rfl hstart with
    ⟨final, hfold, hopen⟩ | ⟨position, hfold, hget, hopen⟩
  · have hcompile : program.compile options = final.finish := by
      rw [compile, hfold]
      rfl
    obtain hnil | ⟨inner, outermost, hlast⟩ := List.eq_nil_or_concat' final.opened
    · rw [hnil] at hopen
      refine .inl ⟨balanced_iff_openAt.mpr hopen, final.stream, ?_⟩
      rw [hcompile, Compilation.finish, hnil]
      rfl
    · -- a loop is left open: the bottom of the stack is the outermost of them
      rw [hlast, List.map_append] at hopen
      obtain ⟨-, hopening, hbefore, -⟩ := Bracket.OpenAt.outermost hopen
      obtain ⟨bracket, hget, hside⟩ := Option.bind_eq_some_iff.mp hopening
      obtain rfl := Instr.eq_loopStart_of_side hside
      refine .inr ⟨.loopStart, outermost.position, ?_, ?_⟩
      · exact OpenAt.firstUnpaired hbefore hget (by simp [Instr.side])
          (Bracket.OpenAt.not_paired_outermost hopen)
      · rw [hcompile, Compilation.finish, hlast, List.getLast?_concat]
        rfl
  · -- an end that closes no loop stops the compilation where it stands
    refine .inr ⟨.loopEnd, position, ?_, ?_⟩
    · exact hopen.firstUnpaired hget (by simp [Instr.side])
        (Bracket.OpenAt.not_paired_closing hopen (Bracket.sideAt_of_get hget))
    · rw [compile, hfold]
      rfl

/-- A program that is not balanced has a leftmost bracket without a partner. -/
theorem exists_firstUnpaired (h : ¬ program.Balanced) :
    ∃ bracket position, program.FirstUnpaired bracket position := by
  rcases compile_cases {} program with ⟨hbalanced, -⟩ | ⟨bracket, position, hfirst, -⟩
  · exact absurd hbalanced h
  · exact ⟨bracket, position, hfirst⟩

/-- The leftmost bracket without a partner is the error of the compiler. -/
theorem FirstUnpaired.compile_eq {bracket : Instr} {position : Nat}
    (h : program.FirstUnpaired bracket position) (options : CompileOptions) :
    program.compile options = .error (.unmatchedBracket bracket.toChar position) := by
  rcases compile_cases options program with
    ⟨hbalanced, -⟩ | ⟨bracket', position', hfirst, herror⟩
  · exact absurd hbalanced h.not_balanced
  · obtain ⟨rfl, rfl⟩ := h.unique hfirst
    exact herror

end Program

/-- A run that fails fails in a step. -/
theorem Walks.exists_step_of_failed {σ : Type} {go : σ → Option (Outcome σ)} {state stopped : σ}
    {visited : List σ} {error : Error} (h : Walks go state visited (.failed error stopped)) :
    ∃ last ∈ visited, go last = some (.failed error stopped) := by
  generalize houtcome : Outcome.failed error stopped = outcome at h
  induction h with
  | halt => cases houtcome
  | fail hgo =>
    cases houtcome
    exact ⟨_, List.mem_singleton_self _, hgo⟩
  | step _ _ ih =>
    obtain ⟨last, hmem, hgo⟩ := ih houtcome
    exact ⟨last, List.mem_cons_of_mem _ hmem, hgo⟩

/-- Acting on the machine does not find an unmatched bracket. -/
theorem Config.act_ne_unmatchedBracket {config stopped : Config} {instr : Instr} {bracket : Char}
    {position : Nat} :
    config.act instr.act ≠ .failed (.unmatchedBracket bracket position) stopped := by
  obtain ⟨place, machine⟩ := config
  intro h
  rw [act] at h
  split at h
  · cases h
  · next error machine' hact =>
    cases h
    cases Instr.ofMachine_of_act hact with
    | offTape hoff =>
      obtain ⟨index, hindex, -⟩ := hoff
      cases hindex
  · cases h

/-- The scanning interpreter finds a bracket to be unmatched only if it stands on the bracket, and
the bracket has no partner. -/
theorem Scanning.of_step_unmatchedBracket {program : Program} {instr : Instr}
    {config stopped : Config} {bracket : Char} {position : Nat}
    (hget : program.get? config.position = some instr)
    (h : step program instr config = .failed (.unmatchedBracket bracket position) stopped) :
    position = config.position ∧ bracket = instr.toChar ∧ instr.side ≠ none ∧
      ¬ program.Paired position := by
  have hsideAt : Bracket.sideAt Instr.side program.instrs config.position = instr.side :=
    Bracket.sideAt_of_get hget
  cases hside : instr.side with
  | none =>
    rw [step_of_side_eq_none hside] at h
    exact absurd h Config.act_ne_unmatchedBracket
  | some bracket =>
    rw [hside] at hsideAt
    -- only a failed search reports a bracket, and it is made from the bracket itself
    cases bracket with
    | opening =>
      obtain rfl := Instr.eq_loopStart_of_side hside
      rw [step] at h
      split at h
      · split at h
        · cases h
        · next hclose =>
          cases h
          exact ⟨rfl, rfl, Option.some_ne_none _,
            (Bracket.not_paired_iff_matchingClose hsideAt).mpr hclose⟩
      · cases h
    | closing =>
      obtain rfl := Instr.eq_loopEnd_of_side hside
      rw [step] at h
      split at h
      · cases h
      · split at h
        · cases h
        · next hopen =>
          cases h
          exact ⟨rfl, rfl, Option.some_ne_none _,
            (Bracket.not_paired_iff_matchingOpen hsideAt).mpr hopen⟩

/-- A run of the scanning interpreter that ends at an unmatched bracket ends at a bracket without a
partner. -/
theorem Scanning.of_endsWith_unmatchedBracket {program : Program} {machine stopped : Machine}
    {bracket : Char} {position : Nat}
    (h : EndsWith (run program · machine) (.failed (.unmatchedBracket bracket position) stopped)) :
    ∃ instr, program.get? position = some instr ∧ bracket = instr.toChar ∧ instr.side ≠ none ∧
      ¬ program.Paired position := by
  obtain ⟨final, hends, hfinal⟩ := (endsWith_comp_iff fun _ => Outcome.terminates_map).mp h
  cases final with
  | done final => cases hfinal
  | unfinished => cases hfinal
  | failed error final =>
    cases hfinal
    obtain ⟨visited, hwalks⟩ := endsWith_walk_iff.mp hends
    -- the error comes from the step at the last configuration that is visited
    obtain ⟨last, -, hgo⟩ := hwalks.exists_step_of_failed
    obtain ⟨instr, hget, hstep⟩ := Option.map_eq_some_iff.mp hgo
    obtain ⟨rfl, rfl, hside, hunpaired⟩ := of_step_unmatchedBracket hget hstep
    exact ⟨instr, hget, rfl, hside, hunpaired⟩

namespace Program

/-- The compiler, with any options, and the resolver accept the balanced programs; on any other they
report the leftmost bracket that has no partner. A run of the scanning interpreter that ends at an
unmatched bracket ends at one that has no partner, and the resolver reports one that does not stand
to the right of it. -/
theorem unmatched_agree (program : Program) :
    (∀ options, (∃ stream, program.compile options = .ok stream) ↔ program.Balanced) ∧
    ((∃ table, program.resolveJumps = .ok table) ↔ program.Balanced) ∧
    (¬ program.Balanced → ∃ bracket position, program.FirstUnpaired bracket position ∧
      program.resolveJumps = .error (.unmatchedBracket bracket.toChar position) ∧
      ∀ options, program.compile options =
        .error (.unmatchedBracket bracket.toChar position)) ∧
    ∀ machine stopped bracket position,
      EndsWith (Scanning.run program · machine)
        (.failed (.unmatchedBracket bracket position) stopped) →
      (∃ instr, program.get? position = some instr ∧ bracket = instr.toChar ∧
        instr.side ≠ none) ∧
      ¬ program.Paired position ∧
      ∃ first earliest, earliest ≤ position ∧
        program.resolveJumps = .error (.unmatchedBracket first earliest) := by
  refine ⟨fun options => ?_, ?_, fun hbalanced => ?_,
    fun machine stopped bracket position hends => ?_⟩
  · rcases compile_cases options program with
      ⟨hbalanced, hcompile⟩ | ⟨bracket, position, hfirst, herror⟩
    · exact ⟨fun _ => hbalanced, fun _ => hcompile⟩
    · refine ⟨?_, fun hbalanced => absurd hbalanced hfirst.not_balanced⟩
      rintro ⟨stream, hcompile⟩
      rw [hcompile] at herror
      cases herror
  · rcases program.resolveJumps_cases with
      ⟨table, htable, -, hpaired⟩ | ⟨bracket, position, hfirst, herror⟩
    · refine ⟨fun _ => Classical.byContradiction fun hbalanced => ?_, fun _ => ⟨table, htable⟩⟩
      obtain ⟨bracket, position, hfirst⟩ := exists_firstUnpaired hbalanced
      exact hfirst.unpaired (hpaired position hfirst.bracketAt)
    · refine ⟨?_, fun hbalanced => absurd hbalanced hfirst.not_balanced⟩
      rintro ⟨table, htable⟩
      rw [htable] at herror
      cases herror
  · obtain ⟨bracket, position, hfirst⟩ := exists_firstUnpaired hbalanced
    exact ⟨bracket, position, hfirst, hfirst.resolveJumps_eq, hfirst.compile_eq⟩
  · obtain ⟨instr, hget, rfl, hside, hunpaired⟩ := Scanning.of_endsWith_unmatchedBracket hends
    refine ⟨⟨instr, hget, rfl, hside⟩, hunpaired, ?_⟩
    have hbracket : program.BracketAt position := bracketAt_of_get hget hside
    have hbalanced : ¬ program.Balanced := fun hbalanced =>
      hunpaired (paired_of_balanced hbalanced hbracket)
    -- the leftmost bracket without a partner does not stand to the right of this one
    obtain ⟨first, earliest, hfirst⟩ := exists_firstUnpaired hbalanced
    refine ⟨_, earliest, Nat.le_of_not_lt fun hlt => ?_, hfirst.resolveJumps_eq⟩
    exact hunpaired (hfirst.before position hlt hbracket)

/-- A program of two brackets that are the wrong way round. From a cell that is not zero a run ends
at the first of them. -/
theorem unmatched_agree_wrongWayRound :
    ¬ Balanced ⟨#[.loopEnd, .loopStart]⟩ ∧
    (∀ options, compile options ⟨#[.loopEnd, .loopStart]⟩ = .error (.unmatchedBracket ']' 0)) ∧
    ∃ machine stopped,
      EndsWith (Scanning.run ⟨#[.loopEnd, .loopStart]⟩ · machine)
        (.failed (.unmatchedBracket ']' 0) stopped) ∧
      ¬ Paired ⟨#[.loopEnd, .loopStart]⟩ 0 := by
  have hbalanced : ¬ Balanced ⟨#[.loopEnd, .loopStart]⟩ := by
    rw [balanced_iff_openAfter]
    decide
  have hresolve : resolveJumps ⟨#[.loopEnd, .loopStart]⟩ = .error (.unmatchedBracket ']' 0) := by
    cbv
  obtain ⟨bracket, position, -, herror, hcompile⟩ := (unmatched_agree _).2.2.1 hbalanced
  rw [hresolve, Except.error.injEq] at herror
  have hends : EndsWith
      (Scanning.run ⟨#[.loopEnd, .loopStart]⟩ · ⟨Tape.blank.setCurrent 1, .ofBytes [], .unlimited⟩)
      (.failed (.unmatchedBracket ']' 0) ⟨Tape.blank.setCurrent 1, .ofBytes [], .unlimited⟩) := by
    refine ⟨by rintro ⟨⟩, 1, ?_⟩
    simp [Scanning.run, Scanning.runFrom, walk, Scanning.step, Config.atZero, openOf,
      Bracket.matchingOpen, Bracket.openBefore]
  obtain ⟨-, hunpaired, -⟩ := (unmatched_agree _).2.2.2 _ _ _ _ hends
  rw [← herror] at hcompile
  exact ⟨hbalanced, hcompile, _, _, hends, hunpaired⟩

end Program

end TapeLang

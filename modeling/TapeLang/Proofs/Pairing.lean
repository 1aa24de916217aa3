import Mathlib
import TapeLang.Proofs.Resolution

/-!
# Pairing

The forward scan from a loop start and the backward scan from a loop end count in opposite
directions, and find each other. The forward scan stops as soon as more loops have ended than have
started. The table of a program is filled in from the loop starts alone: a mark on each loop end
that has been claimed keeps the resolver from overwriting an entry, and a loop end without a mark
has no partner, so that the backward scan never has anything to add.

## Main definitions

* `Bracket.Overclosed`: more loops end than start between two positions.
* `JumpTable.Nests`: the entries of a table join brackets, and its loops nest.
* `Program.resolveMarked`: the resolver with its marks.

## Main results

* `Bracket.matchingClose_iff_matchingOpen`, `Bracket.matchingClose_iff_isLeast`: what the forward
  scan finds, by the backward scan and by counting.
* `Program.nests_of_resolveJumps`: the table of a program is a nesting.
* `Program.resolveMarked_range`: the marks up to a position, and the table that goes with them.
* `Program.scans_meet_and_jumps_nest`: the scans of any text, the table of any program, and the
  backward scan of the resolver.
-/

namespace TapeLang

/-! ### Scans in opposite directions -/

namespace Bracket

section Scans

variable {α : Type} {side : α → Option Bracket} {items : Array α} {start stop opening closing : Nat}

/-- More loops end than start between two positions. -/
def Overclosed (side : α → Option Bracket) (items : Array α) (start stop : Nat) : Prop :=
  number side .opening (items.extract start stop).toList <
    number side .closing (items.extract start stop).toList

/-- Where no loop has ended that is not open, the next item ends one if it is a loop end and none
is open. -/
theorem overclosed_succ_iff {opened : Nat} (hle : start ≤ stop) (hsize : stop < items.size)
    (h : openBetween side items start stop 0 = some opened) :
    Overclosed side items start (stop + 1) ↔
      sideAt side items stop = some .closing ∧ opened = 0 := by
  have htotal := (openAfter_eq_some_iff.mp h).2
  rw [Nat.zero_add] at htotal
  rw [Overclosed, Array.extract_succ_right (Nat.lt_succ_of_le hle) hsize, Array.toList_push,
    sideAt_eq hsize]
  simp only [number, List.countP_append, List.countP_singleton] at htotal ⊢
  rw [htotal]
  cases side items[stop] with
  | none => simp
  | some bracket =>
    cases bracket with
    | opening => simp; omega
    | closing => simp

/-- No loop ends that is not open if and only if no prefix ends more loops than it starts. -/
theorem exists_openBetween_iff (hle : start ≤ stop) (hstop : stop ≤ items.size) :
    (∃ opened, openBetween side items start stop 0 = some opened) ↔
      ∀ middle, start ≤ middle → middle < stop → ¬ Overclosed side items start (middle + 1) := by
  -- by induction on the end of the prefix: all but the last item are settled by the hypothesis,
  -- and the last one is a loop end that is not open, or it is passed
  induction stop, hle using Nat.le_induction with
  | base => simp; omega
  | succ stop hle ih =>
    have hsize : stop < items.size := hstop
    rw [openBetween_last hle hsize]
    constructor
    · rintro ⟨left, hleft⟩ middle hstart hmiddle
      obtain ⟨opened, hopened, hpass⟩ := Option.bind_eq_some_iff.mp hleft
      rcases Nat.lt_succ_iff_lt_or_eq.mp hmiddle with hlt | rfl
      · exact (ih (Nat.le_of_lt hsize)).mp ⟨opened, hopened⟩ middle hstart hlt
      · rw [overclosed_succ_iff hle hsize hopened]
        rintro ⟨hclosing, rfl⟩
        simp [hclosing, pass] at hpass
    · intro hall
      obtain ⟨opened, hopened⟩ := (ih (Nat.le_of_lt hsize)).mpr fun middle hstart hlt =>
        hall middle hstart (Nat.lt_succ_of_lt hlt)
      have hlast := (overclosed_succ_iff hle hsize hopened).not.mp
        (hall stop hle (Nat.lt_succ_self _))
      rw [hopened, Option.bind_some]
      cases hside : sideAt side items stop with
      | none => exact ⟨_, rfl⟩
      | some bracket =>
        cases bracket with
        | opening => exact ⟨_, rfl⟩
        | closing => exact ⟨opened - 1, if_neg fun hzero => hlast ⟨hside, hzero⟩⟩

/-- The forward scan from a loop start stops where, for the first time, more loops have ended than
have started behind it. -/
theorem matchingClose_iff_isLeast :
    matchingClose side items opening = some closing ↔
      IsLeast {stop | opening < stop ∧ stop < items.size ∧
        Overclosed side items (opening + 1) (stop + 1)} closing := by
  rw [matchingClose, closeFrom_eq_some_iff]
  constructor
  · rintro ⟨hle, hclosing, hbalanced⟩
    have hsize := lt_size_of_sideAt hclosing
    refine ⟨⟨hle, hsize, (overclosed_succ_iff hle hsize hbalanced).mpr ⟨hclosing, rfl⟩⟩, ?_⟩
    rintro stop ⟨hlt, -, hover⟩
    by_contra! hstop
    exact (exists_openBetween_iff hle (Nat.le_of_lt hsize)).mp ⟨0, hbalanced⟩ stop hlt hstop hover
  · rintro ⟨⟨hle, hsize, hover⟩, hleast⟩
    -- before the least position no loop has ended that is not open, so the scan gets there
    have hbefore : ∀ middle, opening + 1 ≤ middle → middle < closing →
        ¬ Overclosed side items (opening + 1) (middle + 1) := fun middle hlt hmiddle hmore =>
      Nat.not_le_of_lt hmiddle (hleast ⟨hlt, Nat.lt_trans hmiddle hsize, hmore⟩)
    obtain ⟨opened, hopened⟩ := (exists_openBetween_iff hle (Nat.le_of_lt hsize)).mpr hbefore
    obtain ⟨hclosing, rfl⟩ := (overclosed_succ_iff hle hsize hopened).mp hover
    exact ⟨hle, hclosing, hopened⟩

/-- The forward scan from a loop start finds the loop end from which the backward scan finds the
loop start. -/
theorem matchingClose_iff_matchingOpen (h : sideAt side items opening = some .opening) :
    matchingClose side items opening = some closing ↔
      sideAt side items closing = some .closing ∧
        matchingOpen side items closing = some opening := by
  rw [matchingClose_eq_some_iff h]
  constructor
  · intro hpartners
    exact ⟨hpartners.closing_eq, (matchingOpen_eq_some_iff hpartners.closing_eq).mpr hpartners⟩
  · rintro ⟨hclosing, hfound⟩
    exact (matchingOpen_eq_some_iff hclosing).mp hfound

/-- Of two loops the one that starts later ends before the other does, or starts behind it. -/
theorem Partners.nested_or_behind {opening' closing' : Nat}
    (h : Partners side items opening closing) (h' : Partners side items opening' closing')
    (hlt : opening < opening') : closing < opening' ∨ closing' < closing := by
  rcases Nat.lt_trichotomy closing opening' with hbehind | rfl | hinside
  · exact .inl hbehind
  · have hsides := h.closing_eq.symm.trans h'.opening_eq
    cases hsides
  · -- what starts inside a loop ends inside it
    obtain ⟨found, hfound, hpartners⟩ := exists_partners_of_openBetween
      (Nat.le_of_lt (lt_size_of_sideAt h.closing_eq)) h.balanced hlt hinside h'.opening_eq
    obtain rfl := hpartners.closing_unique h'
    exact .inr hfound

/-- Of two loops one is behind the other or strictly inside it. -/
theorem Partners.behind_or_nested {opening' closing' : Nat}
    (h : Partners side items opening closing) (h' : Partners side items opening' closing')
    (hne : (opening, closing) ≠ (opening', closing')) :
    closing < opening' ∨ closing' < opening ∨
      (opening < opening' ∧ closing' < closing) ∨ (opening' < opening ∧ closing < closing') := by
  rcases Nat.lt_trichotomy opening opening' with hlt | rfl | hgt
  · rcases h.nested_or_behind h' hlt with hbehind | hinside
    · exact .inl hbehind
    · exact .inr (.inr (.inl ⟨hlt, hinside⟩))
  · -- two loops that start together are one
    exact absurd (congrArg _ (h.closing_unique h')) hne
  · rcases h'.nested_or_behind h hgt with hbehind | hinside
    · exact .inr (.inl hbehind)
    · exact .inr (.inr (.inr ⟨hgt, hinside⟩))

end Scans

/-! ### Brackets of a text -/

section Text

variable {bytes : Array UInt8} {position : Nat}

/-- One byte spells a loop start. -/
theorem bracketOfByte_eq_opening_iff {byte : UInt8} :
    bracketOfByte byte = some .opening ↔ byte = 91 := by
  rw [bracketOfByte, Option.bind_eq_some_iff]
  constructor
  · rintro ⟨instr, hinstr, hside⟩
    obtain rfl := Instr.eq_loopStart_of_side hside
    exact Instr.ofByte?_eq_some_iff.mp hinstr
  · rintro rfl
    exact ⟨.loopStart, rfl, rfl⟩

/-- One byte spells a loop end. -/
theorem bracketOfByte_eq_closing_iff {byte : UInt8} :
    bracketOfByte byte = some .closing ↔ byte = 93 := by
  rw [bracketOfByte, Option.bind_eq_some_iff]
  constructor
  · rintro ⟨instr, hinstr, hside⟩
    obtain rfl := Instr.eq_loopEnd_of_side hside
    exact Instr.ofByte?_eq_some_iff.mp hinstr
  · rintro rfl
    exact ⟨.loopEnd, rfl, rfl⟩

/-- A loop start stands in a text where its byte does. -/
theorem sideAt_bytes_eq_opening_iff :
    sideAt bracketOfByte bytes position = some .opening ↔ bytes[position]? = some 91 := by
  simp [sideAt, Option.bind_eq_some_iff, bracketOfByte_eq_opening_iff]

/-- A loop end stands in a text where its byte does. -/
theorem sideAt_bytes_eq_closing_iff :
    sideAt bracketOfByte bytes position = some .closing ↔ bytes[position]? = some 93 := by
  simp [sideAt, Option.bind_eq_some_iff, bracketOfByte_eq_closing_iff]

/-- More loops end than start in a part of a text if the one byte is more frequent than the
other. -/
theorem overclosed_bytes_iff {start stop : Nat} :
    Overclosed bracketOfByte bytes start stop ↔
      (bytes.extract start stop).toList.count 91 < (bytes.extract start stop).toList.count 93 := by
  have hopening : number bracketOfByte .opening (bytes.extract start stop).toList =
      (bytes.extract start stop).toList.count 91 :=
    List.countP_congr fun byte _ => by simp [bracketOfByte_eq_opening_iff]
  have hclosing : number bracketOfByte .closing (bytes.extract start stop).toList =
      (bytes.extract start stop).toList.count 93 :=
    List.countP_congr fun byte _ => by simp [bracketOfByte_eq_closing_iff]
  rw [Overclosed, hopening, hclosing]

/-- Where the backward scan of a text finds a loop start, it does not leave the text. -/
theorem matchingOpen?_eq_ok_iff {opening closing : Nat} (h : bytes[closing]? = some 93) :
    matchingOpen? bracketOfByte bytes closing = .ok (some opening) ↔
      matchingOpen bracketOfByte bytes closing = some opening := by
  have hsize := (Array.getElem?_eq_some_iff.mp h).1
  rw [matchingOpen?, if_pos (Nat.le_of_lt hsize), Except.ok.injEq]

end Text

end Bracket

/-! ### The nesting of a table -/

/-- The entries of a table join the brackets of a program in pairs, and the loops of the table nest
and are listed in the order in which they start. -/
structure JumpTable.Nests (table : JumpTable) (program : Program) : Prop where
  /-- The brackets have an entry, and nothing else has. -/
  entries : ∀ position, (table.target? position).isSome ↔ program.BracketAt position
  /-- Every entry leads to another bracket, whose entry leads back. -/
  returns : ∀ position partner, table.target? position = some partner →
    partner ≠ position ∧ table.target? partner = some position
  /-- There is one loop for each loop start. -/
  openings : table.pairs.toList.map Prod.fst =
    (List.range program.size).filter fun position => program.get? position = some .loopStart
  /-- The loops are listed in the order in which they start. -/
  ordered : table.pairs.toList.Pairwise fun pair later => pair.1 < later.1
  /-- Each loop starts before it ends, and its ends are entered as partners. -/
  joined : ∀ pair ∈ table.pairs, pair.1 < pair.2 ∧
    table.target? pair.1 = some pair.2 ∧ table.target? pair.2 = some pair.1
  /-- Of two loops one is behind the other or strictly inside it. -/
  nested : ∀ pair ∈ table.pairs, ∀ other ∈ table.pairs, pair ≠ other →
    pair.2 < other.1 ∨ other.2 < pair.1 ∨
      (pair.1 < other.1 ∧ other.2 < pair.2) ∨ (other.1 < pair.1 ∧ pair.2 < other.2)

namespace Program

variable {program : Program} {table : JumpTable} {position opening closing : Nat}

/-- What has a partner is a bracket. -/
theorem bracketAt_of_paired (h : program.Paired position) : program.BracketAt position := by
  obtain ⟨partner, hpartners | hpartners⟩ := h
  · exact hpartners.opening_eq.trans_ne (Option.some_ne_none _)
  · exact hpartners.closing_eq.trans_ne (Option.some_ne_none _)

/-- The loops that start before a position are pairs of partners. -/
theorem mem_pairsBefore_iff : (opening, closing) ∈ program.pairsBefore position ↔
    opening < position ∧ program.Partners opening closing := by
  rw [pairsBefore, List.mem_filterMap]
  constructor
  · rintro ⟨start, hstart, hloop⟩
    unfold loopAt? at hloop
    split at hloop
    · next hget =>
      obtain ⟨found, hfound, hpair⟩ := Option.map_eq_some_iff.mp hloop
      cases hpair
      exact ⟨List.mem_range.mp hstart, (closeOf_eq_some_iff hget).mp hfound⟩
    · cases hloop
  · rintro ⟨hlt, hpartners⟩
    exact ⟨opening, List.mem_range.mpr hlt, hpartners.loopAt?_eq⟩

/-- Where all brackets have a partner, a loop is listed for each loop start. -/
theorem map_fst_pairsBefore (h : ∀ position, program.BracketAt position → program.Paired position)
    (position : Nat) : (program.pairsBefore position).map Prod.fst =
      (List.range position).filter fun position => program.get? position = some .loopStart := by
  rw [pairsBefore, List.map_filterMap, ← List.filterMap_eq_filter]
  refine List.filterMap_congr fun start _ => ?_
  by_cases hget : program.get? start = some .loopStart
  · obtain ⟨closing, hclosing⟩ := paired_iff_partner?.mp
      (h start (bracketAt_of_get hget (by simp [Instr.side])))
    simp only [partner?, hget] at hclosing
    simp [loopAt?, hget, hclosing, Option.guard]
  · simp [loopAt?_eq_none hget, hget, Option.guard]

/-- The loops in the table of a program that is resolved are pairs of partners. -/
theorem partners_of_mem_pairs (h : program.resolveJumps = .ok table) {pair : Nat × Nat}
    (hmem : pair ∈ table.pairs) : program.Partners pair.1 pair.2 := by
  rw [← Array.mem_toList_iff, (resolves_of_resolveJumps h).1.pairs_eq] at hmem
  exact (mem_pairsBefore_iff.mp hmem).2

/-- The entries in the table of a program that is resolved join partners, in both directions. -/
theorem target?_eq_some_iff (h : program.resolveJumps = .ok table) {partner : Nat} :
    table.target? position = some partner ↔
      program.Partners position partner ∨ program.Partners partner position := by
  rw [target?_of_resolveJumps h, partner?_eq_some_iff]

/-- In the table of a program that is resolved there is one loop for each loop start. -/
theorem map_fst_pairs (h : program.resolveJumps = .ok table) : table.pairs.toList.map Prod.fst =
    (List.range program.size).filter fun position => program.get? position = some .loopStart := by
  obtain ⟨hresolves, hpaired⟩ := resolves_of_resolveJumps h
  rw [hresolves.pairs_eq, map_fst_pairsBefore hpaired]

/-- The table of a program that is resolved is a nesting. -/
theorem nests_of_resolveJumps (h : program.resolveJumps = .ok table) : table.Nests program where
  entries position := by
    rw [target?_of_resolveJumps h, Option.isSome_iff_exists, ← paired_iff_partner?]
    exact ⟨bracketAt_of_paired, (resolves_of_resolveJumps h).2 position⟩
  returns position partner hpartner := by
    rw [target?_eq_some_iff h] at hpartner
    rw [target?_eq_some_iff h]
    rcases hpartner with hpartners | hpartners
    · exact ⟨Nat.ne_of_gt hpartners.lt, .inr hpartners⟩
    · exact ⟨Nat.ne_of_lt hpartners.lt, .inl hpartners⟩
  openings := map_fst_pairs h
  ordered := by
    rw [← List.pairwise_map (f := Prod.fst) (R := (· < ·)), map_fst_pairs h]
    exact List.pairwise_lt_range.filter _
  joined pair hmem := by
    have hpartners := partners_of_mem_pairs h hmem
    rw [target?_eq_some_iff h, target?_eq_some_iff h]
    exact ⟨hpartners.lt, .inl hpartners, .inr hpartners⟩
  nested pair hmem other hother hne :=
    (partners_of_mem_pairs h hmem).behind_or_nested (partners_of_mem_pairs h hother) hne

end Program

/-! ### The marks of the resolver -/

/-- What resolving keeps on its way: the table, and marks on the loop ends that their loop starts
have claimed. -/
structure Marking where
  /-- The table as far as it has been filled in. -/
  table : JumpTable
  /-- For each position whether a loop end there has been claimed. -/
  matched : Array Bool

namespace Marking

/-- Nothing is entered or marked before any bracket is resolved. -/
def blank (size : Nat) : Marking :=
  ⟨.blank size, Array.replicate size false⟩

/-- Resolves the bracket at `position`, if one stands there. A loop start enters its loop and marks
the loop end. From a loop end that has no mark the scan goes back, and what it finds is entered. -/
def resolve (program : Program) (marking : Marking) (position : Nat) : Except Error Marking :=
  match program.get? position with
  | some .loopStart =>
    match program.closeOf position with
    | some closing =>
      .ok ⟨(marking.table.link position closing).addPair position closing,
        marking.matched.setIfInBounds closing true⟩
    | none => .error (.unmatchedBracket '[' position)
  | some .loopEnd =>
    if marking.matched[position]? = some false then
      match program.openOf position with
      | some opening => .ok { marking with table := marking.table.link opening position }
      | none => .error (.unmatchedBracket ']' position)
    else
      .ok marking
  | _ => .ok marking

end Marking

/-- The marks and the table after the brackets before a position are resolved. -/
def Program.markBefore (program : Program) (position : Nat) : Except Error Marking :=
  (List.range position).foldlM (Marking.resolve program) (.blank program.size)

/-- Matches every bracket of a program, with a mark on each loop end that has been claimed. -/
def Program.resolveMarked (program : Program) : Except Error Marking :=
  program.markBefore program.size

namespace Marking

variable {program : Program} {marking : Marking} {position closing : Nat}

/-- The loops that start before a position are entered, and their loop ends are marked. -/
structure Follows (marking : Marking) (program : Program) (position : Nat) : Prop where
  /-- The loops are entered. -/
  resolves : marking.table.Resolves program position
  /-- There is a place for a mark at each position. -/
  size_eq : marking.matched.size = program.size
  /-- Their loop ends are marked, and nothing else is. -/
  matched_iff : ∀ closing, marking.matched[closing]? = some true ↔
    ∃ opening < position, program.Partners opening closing

/-- Before the first position nothing is marked. -/
theorem follows_blank (program : Program) : (blank program.size).Follows program 0 where
  resolves := JumpTable.resolves_blank program
  size_eq := by simp [blank]
  matched_iff closing := by simp [blank, Array.getElem?_replicate]

/-- Nothing is to be marked for an item at which no loop starts. -/
theorem Follows.next (h : marking.Follows program position)
    (hget : program.get? position ≠ some .loopStart) :
    marking.Follows program (position + 1) where
  resolves := h.resolves.next hget
  size_eq := h.size_eq
  matched_iff closing := by
    rw [h.matched_iff]
    refine exists_congr fun opening => and_congr_left fun hpartners => ?_
    have hne : opening ≠ position := by
      rintro rfl
      exact hget hpartners.get_opening
    omega

/-- The loop end of a loop that starts at a position is marked there. -/
theorem Follows.link (h : marking.Follows program position)
    (hpartners : program.Partners position closing) :
    Follows ⟨(marking.table.link position closing).addPair position closing,
      marking.matched.setIfInBounds closing true⟩ program (position + 1) where
  resolves := h.resolves.link hpartners
  size_eq := by rw [Array.size_setIfInBounds, h.size_eq]
  matched_iff other := by
    have hsize : closing < marking.matched.size := by
      rw [h.size_eq]
      exact Bracket.lt_size_of_sideAt hpartners.closing_eq
    rw [Array.getElem?_setIfInBounds]
    split
    · next heq =>
      subst heq
      exact iff_of_true rfl ⟨position, Nat.lt_succ_self _, hpartners⟩
    · next hne =>
      rw [h.matched_iff]
      refine exists_congr fun opening => and_congr_left fun hother => ?_
      have hopening : opening ≠ position := by
        rintro rfl
        exact hne (hpartners.closing_unique hother)
      omega

/-- From a loop end without a mark the backward scan finds nothing. -/
theorem Follows.openOf_eq_none (h : marking.Follows program position)
    (hget : program.get? position = some .loopEnd)
    (hmark : marking.matched[position]? = some false) : program.openOf position = none := by
  refine Option.eq_none_iff_forall_not_mem.mpr fun opening hopening => ?_
  have hpartners := (Program.openOf_eq_some_iff hget).mp hopening
  rw [(h.matched_iff position).mpr ⟨opening, hpartners.lt, hpartners⟩] at hmark
  cases hmark

/-- A loop end has a mark if and only if it has an entry. -/
theorem Follows.isSome_target?_iff (h : marking.Follows program position)
    (hget : program.get? position = some .loopEnd) :
    (marking.table.target? position).isSome ↔ marking.matched[position]? ≠ some false := by
  have hsize : position < marking.matched.size := by
    rw [h.size_eq]
    exact (Program.bracketAt_of_get hget (by simp [Instr.side])).lt_size
  have hmark : marking.matched[position]? ≠ some false ↔
      marking.matched[position]? = some true := by
    simp [Array.getElem?_eq_getElem hsize]
  rw [hmark, h.matched_iff, Option.isSome_iff_exists]
  constructor
  · rintro ⟨opening, hopening⟩
    rw [h.resolves.target_iff, Program.partner?_eq_some_iff] at hopening
    -- an entry of a loop end cannot come from a loop that starts there
    rcases hopening with ⟨hpartners | hpartners, hlt⟩
    · cases hget.symm.trans hpartners.get_opening
    · exact ⟨opening, hpartners.lt, hpartners⟩
  · rintro ⟨opening, hlt, hpartners⟩
    refine ⟨opening, (h.resolves.target_iff _ _).mpr ⟨?_, by omega⟩⟩
    exact Program.partner?_eq_some_iff.mpr (.inr hpartners)

/-- Resolving a bracket with marks does what resolving it by the entries does. -/
theorem Follows.resolve_cases (h : marking.Follows program position) :
    (∃ next, resolve program marking position = .ok next ∧
      JumpTable.resolve program marking.table position = .ok next.table ∧
      next.Follows program (position + 1)) ∨
    ∃ error, resolve program marking position = .error error ∧
      JumpTable.resolve program marking.table position = .error error := by
  unfold resolve
  split
  · next hget =>
    simp only [JumpTable.resolve, hget]
    cases hclose : program.closeOf position with
    | some closing =>
      exact .inl ⟨_, rfl, rfl, h.link ((Program.closeOf_eq_some_iff hget).mp hclose)⟩
    | none => exact .inr ⟨_, rfl, rfl⟩
  · next hget =>
    -- without a mark both come to the error, and with one both leave the table alone
    simp only [JumpTable.resolve, hget]
    by_cases hmark : marking.matched[position]? = some false
    · have htarget := (h.isSome_target?_iff hget).not.mpr (not_not.mpr hmark)
      rw [if_pos hmark, if_neg htarget, h.openOf_eq_none hget hmark]
      exact .inr ⟨_, rfl, rfl⟩
    · rw [if_neg hmark, if_pos ((h.isSome_target?_iff hget).mpr hmark)]
      exact .inl ⟨marking, rfl, rfl, h.next (by simp [hget])⟩
  · next hstart hend =>
    refine .inl ⟨marking, rfl, ?_, h.next hstart⟩
    unfold JumpTable.resolve
    split <;> first | contradiction | rfl

end Marking

namespace Program

variable {program : Program}

/-- Resolving the first brackets of a program with marks gives the table that resolving them by the
entries gives, with marks that follow, or the same error. -/
theorem resolveMarked_range (program : Program) (position : Nat) :
    (∃ marking, program.markBefore position = .ok marking ∧
      (List.range position).foldlM (JumpTable.resolve program) (.blank program.size) =
        .ok marking.table ∧ marking.Follows program position) ∨
    ∃ error, program.markBefore position = .error error ∧
      (List.range position).foldlM (JumpTable.resolve program) (.blank program.size) =
        .error error := by
  unfold markBefore
  induction position with
  | zero => exact .inl ⟨_, rfl, rfl, Marking.follows_blank program⟩
  | succ position ih =>
    rw [foldlM_range_succ, foldlM_range_succ]
    rcases ih with ⟨marking, hmarking, htable, hfollows⟩ | ⟨error, hmarking, htable⟩
    · rw [hmarking, htable]
      exact hfollows.resolve_cases
    · rw [hmarking, htable]
      exact .inr ⟨error, rfl, rfl⟩

/-- In any text the forward scan from a loop start and the backward scan from a loop end find each
other, and the forward scan stops at the first byte up to which more loops end than start. The table
of a program that is resolved is a nesting. Resolving with marks gives the same table or error, and
from a loop end without a mark there is nothing to be found, so that no entry ever comes from the
backward scan. -/
theorem scans_meet_and_jumps_nest :
    (∀ (bytes : Array UInt8) (opening : Nat), bytes[opening]? = some 91 → ∀ closing,
      (Bracket.matchingClose bracketOfByte bytes opening = some closing ↔
        bytes[closing]? = some 93 ∧
          Bracket.matchingOpen? bracketOfByte bytes closing = .ok (some opening)) ∧
      (Bracket.matchingClose bracketOfByte bytes opening = some closing ↔
        IsLeast {stop | opening < stop ∧ stop < bytes.size ∧
          (bytes.extract (opening + 1) (stop + 1)).toList.count 91 <
            (bytes.extract (opening + 1) (stop + 1)).toList.count 93} closing)) ∧
    (∀ (program : Program) table, program.resolveJumps = .ok table → table.Nests program) ∧
    ∀ program : Program, program.resolveMarked.map Marking.table = program.resolveJumps ∧
      ∀ position marking, program.markBefore position = .ok marking →
        program.get? position = some .loopEnd → marking.matched[position]? = some false →
        program.openOf position = none := by
  refine ⟨fun bytes opening hopening closing => ⟨?_, ?_⟩,
    fun program table => nests_of_resolveJumps,
    fun program => ⟨?_, fun position marking hmarking => ?_⟩⟩
  · rw [Bracket.matchingClose_iff_matchingOpen (Bracket.sideAt_bytes_eq_opening_iff.mpr hopening),
      Bracket.sideAt_bytes_eq_closing_iff]
    exact and_congr_right fun hclosing => (Bracket.matchingOpen?_eq_ok_iff hclosing).symm
  · simp only [Bracket.matchingClose_iff_isLeast, Bracket.overclosed_bytes_iff]
  · rcases program.resolveMarked_range program.size with
      ⟨marking, hmarking, htable, -⟩ | ⟨error, hmarking, htable⟩
    · rw [resolveMarked, hmarking, resolveJumps, htable]
      rfl
    · rw [resolveMarked, hmarking, resolveJumps, htable]
      rfl
  · -- whatever state the resolver comes to, its marks follow the loops before it
    rcases program.resolveMarked_range position with
      ⟨marking', hmarking', -, hfollows⟩ | ⟨error, hmarking', -⟩
    · rw [hmarking] at hmarking'
      cases hmarking'
      exact hfollows.openOf_eq_none
    · rw [hmarking] at hmarking'
      cases hmarking'

/-- A text with two nested loops and comments, the program that it spells, and a program that is
resolved with marks up to a loop end without a loop start. -/
theorem scans_meet_and_jumps_nest_nestedText :
    Bracket.matchingClose bracketOfByte #[120, 91, 97, 91, 98, 93, 99, 93] 1 = some 7 ∧
      IsLeast {stop | 1 < stop ∧ stop < 8 ∧
        ((#[120, 91, 97, 91, 98, 93, 99, 93] : Array UInt8).extract 2 (stop + 1)).toList.count 91 <
          ((#[120, 91, 97, 91, 98, 93, 99, 93] : Array UInt8).extract 2
            (stop + 1)).toList.count 93} 7 ∧
      (∃ table, resolveJumps ⟨#[.loopStart, .loopStart, .loopEnd, .loopEnd]⟩ = .ok table ∧
        table.pairs = #[(0, 3), (1, 2)] ∧
        table.Nests ⟨#[.loopStart, .loopStart, .loopEnd, .loopEnd]⟩) ∧
      ∃ marking, markBefore ⟨#[.loopStart, .loopEnd, .loopEnd]⟩ 2 = .ok marking ∧
        marking.matched = #[false, true, false] ∧
        openOf ⟨#[.loopStart, .loopEnd, .loopEnd]⟩ 2 = none := by
  obtain ⟨hscans, hnests, hmarks⟩ := scans_meet_and_jumps_nest
  obtain ⟨hinverse, hleast⟩ := hscans #[120, 91, 97, 91, 98, 93, 99, 93] 1 rfl 7
  have hclose := hinverse.mpr ⟨rfl, rfl⟩
  have htable : resolveJumps ⟨#[.loopStart, .loopStart, .loopEnd, .loopEnd]⟩ =
      .ok ⟨#[some 3, some 2, some 1, some 0], #[(0, 3), (1, 2)]⟩ := by cbv
  have hmarking : markBefore ⟨#[.loopStart, .loopEnd, .loopEnd]⟩ 2 =
      .ok ⟨⟨#[some 1, some 0, none], #[(0, 1)]⟩, #[false, true, false]⟩ := by cbv
  exact ⟨hclose, hleast.mp hclose, ⟨_, htable, rfl, hnests _ _ htable⟩,
    ⟨_, hmarking, rfl, (hmarks _).2 2 _ hmarking rfl rfl⟩⟩

end Program

end TapeLang

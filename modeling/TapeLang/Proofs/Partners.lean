import TapeLang.Bracket
import TapeLang.Proofs.Nesting

/-!
# Partners

Two brackets of a sequence are partners if what stands between them is balanced. This is said by
counting open loops and without a scan, so that it can be compared with the two scans: the forward
scan from a loop start and the backward scan from a loop end both find the partner, and nothing
else.

* `Bracket.matchingClose_eq_some_iff`, `Bracket.matchingOpen_eq_some_iff`: what the scans find.
* `Bracket.paired_of_openBetween`: in a balanced part of a sequence every bracket has a partner.
-/

namespace TapeLang

variable {α : Type} {side : α → Option Bracket} {items : Array α}

namespace Bracket

/-- The side of a loop on which the item at a position stands, if any. -/
def sideAt (side : α → Option Bracket) (items : Array α) (position : Nat) : Option Bracket :=
  items[position]?.bind side

/-- The number of loops that are open at `stop`, if `opened` are open at `start`; `none` if a loop
ends between the two positions that is not open. -/
def openBetween (side : α → Option Bracket) (items : Array α) (start stop opened : Nat) :
    Option Nat :=
  openAfter side opened (items.extract start stop).toList

/-- What an item does to the number of open loops, given the side on which it stands. -/
def pass (opened : Nat) : Option Bracket → Option Nat
  | none => some opened
  | some .opening => some (opened + 1)
  | some .closing => if opened = 0 then none else some (opened - 1)

/-- Two brackets are partners: they start and end a loop, and what stands between them is
balanced. -/
structure Partners (side : α → Option Bracket) (items : Array α) (opening closing : Nat) :
    Prop where
  /-- The loop starts before it ends. -/
  lt : opening < closing
  /-- A loop start stands at the one position. -/
  opening_eq : sideAt side items opening = some .opening
  /-- A loop end stands at the other. -/
  closing_eq : sideAt side items closing = some .closing
  /-- The brackets between them are balanced. -/
  balanced : openBetween side items (opening + 1) closing 0 = some 0

/-- The bracket at a position has a partner. -/
def Paired (side : α → Option Bracket) (items : Array α) (position : Nat) : Prop :=
  ∃ partner, Partners side items position partner ∨ Partners side items partner position

variable {start middle stop depth position found opened left opening closing : Nat}

/-- An item stands where a bracket does. -/
theorem lt_size_of_sideAt {bracket : Bracket} (h : sideAt side items position = some bracket) :
    position < items.size := by
  obtain ⟨item, hitem, -⟩ := Option.bind_eq_some_iff.mp h
  exact (Array.getElem?_eq_some_iff.mp hitem).1

/-- The side of the item that is found at a position. -/
theorem sideAt_of_get {item : α} (h : items[position]? = some item) :
    sideAt side items position = side item :=
  congrArg (·.bind side) h

/-- The side of the item at a position of the sequence. -/
theorem sideAt_eq (h : position < items.size) :
    sideAt side items position = side items[position] := by
  simp [sideAt, h]

/-- One item passes by its side. -/
theorem openAfter_singleton (opened : Nat) (item : α) :
    openAfter side opened [item] = pass opened (side item) := by
  simp only [openAfter]
  cases side item with
  | none => rfl
  | some bracket => cases bracket <;> cases opened <;> rfl

/-- Nothing is passed between a position and itself. -/
@[simp]
theorem openBetween_self (start opened : Nat) :
    openBetween side items start start opened = some opened := by
  simp [openBetween, openAfter]

/-- A part of a sequence is passed in two parts. -/
theorem openBetween_trans (hstart : start ≤ middle) (hstop : middle ≤ stop) (opened : Nat) :
    openBetween side items start stop opened =
      (openBetween side items start middle opened).bind (openBetween side items middle stop) := by
  have hparts : items.extract start stop =
      items.extract start middle ++ items.extract middle stop := by
    rw [Array.extract_append_extract, Nat.min_eq_left hstart, Nat.max_eq_right hstop]
  simp only [openBetween, hparts, Array.toList_append]
  exact openAfter_append opened _ _

/-- One item is passed. -/
theorem openBetween_one (h : position < items.size) (opened : Nat) :
    openBetween side items position (position + 1) opened =
      pass opened (sideAt side items position) := by
  have hitem : items.extract position (position + 1) = #[items[position]] := by
    rw [Array.extract_succ_right (Nat.lt_succ_self _) h,
      Array.extract_eq_empty_of_le (Nat.min_le_left _ _)]
    rfl
  rw [openBetween, hitem, openAfter_singleton, sideAt_eq h]

/-- The first item is passed first. -/
theorem openBetween_first (hlt : start < stop) (hsize : start < items.size) (opened : Nat) :
    openBetween side items start stop opened =
      (pass opened (sideAt side items start)).bind (openBetween side items (start + 1) stop) := by
  rw [openBetween_trans (Nat.le_succ start) hlt, openBetween_one hsize]

/-- The last item is passed last. -/
theorem openBetween_last (hle : start ≤ stop) (hsize : stop < items.size) (opened : Nat) :
    openBetween side items start (stop + 1) opened =
      (openBetween side items start stop opened).bind fun opened =>
        pass opened (sideAt side items stop) := by
  rw [openBetween_trans hle (Nat.le_succ stop)]
  congr 1
  funext opened
  exact openBetween_one hsize opened

/-- Loops that are open in addition stay open. -/
theorem openAfter_add {items : List α} (h : openAfter side opened items = some left)
    (more : Nat) : openAfter side (opened + more) items = some (left + more) := by
  induction items generalizing opened with
  | nil =>
    cases h
    rfl
  | cons item items ih =>
    simp only [openAfter] at h ⊢
    split at h
    · exact ih h
    · rw [Nat.add_right_comm]
      exact ih h
    · cases opened with
      | zero => cases h
      | succ opened =>
        rw [Nat.add_right_comm]
        exact ih h

/-- Loops that are open in addition stay open between two positions. -/
theorem openBetween_add (h : openBetween side items start stop opened = some left) (more : Nat) :
    openBetween side items start stop (opened + more) = some (left + more) :=
  openAfter_add h more

section Scans

/-- A forward scan that starts at an item goes on as the side of the item says. -/
theorem closeFrom_eq (h : position < items.size) (depth : Nat) :
    closeFrom side items depth position =
      match pass depth (sideAt side items position) with
      | some depth => closeFrom side items depth (position + 1)
      | none => some position := by
  rw [closeFrom, dif_pos h, sideAt_eq h]
  cases side items[position] with
  | none => rfl
  | some bracket => cases bracket <;> cases depth <;> rfl

/-- A forward scan ends at the loop end before which as many loops have ended as it started
with. -/
theorem closeFrom_eq_some_iff :
    closeFrom side items depth position = some found ↔
      position ≤ found ∧ sideAt side items found = some .closing ∧
        openBetween side items position found depth = some 0 := by
  -- the scan is followed from the end of the sequence back to its start
  induction hmore : items.size - position generalizing position depth with
  | zero =>
    have hend : ¬ position < items.size := by omega
    rw [closeFrom, dif_neg hend]
    simp only [reduceCtorEq, false_iff, not_and]
    intro hle hclosing
    have := lt_size_of_sideAt hclosing
    omega
  | succ more ih =>
    have hsize : position < items.size := by omega
    have hnext := fun depth => @ih depth (position + 1) (by omega)
    rw [closeFrom_eq hsize]
    -- what is found stands behind the item that is passed, or is this item, or neither
    rcases Nat.lt_trichotomy found position with hlt | rfl | hgt
    · have hnot : ¬ position ≤ found := by omega
      have hnot' : ¬ position + 1 ≤ found := by omega
      cases pass depth (sideAt side items position) with
      | none => simp [hnot]; omega
      | some depth => simp [hnext, hnot, hnot']
    · have hnot : ¬ found + 1 ≤ found := by omega
      cases hpass : pass depth (sideAt side items found) with
      | none =>
        have hclosing : sideAt side items found = some .closing ∧ depth = 0 := by
          unfold pass at hpass
          split at hpass <;> simp_all
        simp [hclosing]
      | some depth' =>
        simp only [hnext, hnot, false_and, openBetween_self, Option.some.injEq, false_iff, not_and]
        rintro - hclosing rfl
        simp [hclosing, pass] at hpass
    · rw [openBetween_first hgt hsize]
      cases pass depth (sideAt side items position) with
      | none =>
        simp only [Option.some.injEq, Option.bind_none, reduceCtorEq, and_false, iff_false]
        omega
      | some depth =>
        rw [hnext, Option.bind_some]
        exact and_congr_left' ⟨fun _ => Nat.le_of_lt hgt, fun _ => hgt⟩

/-- A backward scan that starts behind an item goes on as the side of the item says. -/
theorem openBefore_succ (depth position : Nat) :
    openBefore side items depth (position + 1) =
      match sideAt side items position with
      | none => openBefore side items depth position
      | some .closing => openBefore side items (depth + 1) position
      | some .opening =>
        if depth = 0 then some position else openBefore side items (depth - 1) position := by
  rw [sideAt]
  cases hside : items[position]?.bind side with
  | none => exact openBefore_of_none hside
  | some bracket =>
    cases bracket with
    | closing => exact openBefore_of_closing hside
    | opening =>
      cases depth with
      | zero => exact openBefore_zero_of_opening hside
      | succ depth => exact openBefore_of_opening hside

/-- A backward scan ends at the loop start behind which as many loops stay open as it started
with. -/
theorem openBefore_eq_some_iff (h : position ≤ items.size) :
    openBefore side items depth position = some found ↔
      found < position ∧ sideAt side items found = some .opening ∧
        openBetween side items (found + 1) position 0 = some depth := by
  induction position generalizing depth with
  | zero => simp [openBefore]
  | succ position ih =>
    have hsize : position < items.size := h
    have hprevious := fun depth => @ih depth (Nat.le_of_lt hsize)
    rw [openBefore_succ]
    rcases Nat.lt_trichotomy found position with hlt | rfl | hgt
    -- the item that is passed last stands between what is found and the start of the scan
    · rw [openBetween_last hlt hsize]
      have hlt' : found < position + 1 := by omega
      cases sideAt side items position with
      | none => simp [hprevious, hlt, hlt', pass]
      | some bracket =>
        cases bracket with
        | opening =>
          cases depth with
          | zero =>
            have hne : position ≠ found := by omega
            simp [pass, hne, Option.bind_eq_some_iff]
          | succ depth => simp [hprevious, hlt, hlt', pass, Option.bind_eq_some_iff]
        | closing =>
          simp only [hprevious, hlt, hlt', true_and, pass, Option.bind_eq_some_iff]
          refine and_congr_right fun _ => ⟨fun hbetween => ⟨depth + 1, hbetween, rfl⟩, ?_⟩
          rintro ⟨opened, hopened, hpass⟩
          split at hpass
          · cases hpass
          · rw [hopened]
            cases hpass
            congr 1
            omega
    · simp only [Nat.lt_succ_self, true_and, openBetween_self, Option.some.injEq]
      cases hside : sideAt side items found with
      | none => simp [hprevious]
      | some bracket =>
        cases bracket with
        | opening =>
          by_cases hdepth : depth = 0
          · simp [hdepth]
          · simp [hdepth, hprevious, eq_comm (a := 0)]
        | closing => simp [hprevious]
    · have hnot : ¬ found < position := by omega
      have hnot' : ¬ found < position + 1 := by omega
      cases hside : sideAt side items position with
      | none => simp [hprevious, hnot, hnot']
      | some bracket =>
        cases bracket with
        | opening =>
          by_cases hdepth : depth = 0
          · simp [hdepth, hnot']
            omega
          · simp [hdepth, hprevious, hnot, hnot']
        | closing => simp [hprevious, hnot, hnot']

/-- The forward scan from a loop start finds its partner. -/
theorem matchingClose_eq_some_iff (h : sideAt side items opening = some .opening) :
    matchingClose side items opening = some closing ↔ Partners side items opening closing := by
  rw [matchingClose, closeFrom_eq_some_iff]
  exact ⟨fun ⟨hle, hclosing, hbalanced⟩ => ⟨hle, h, hclosing, hbalanced⟩,
    fun hpartners => ⟨hpartners.lt, hpartners.closing_eq, hpartners.balanced⟩⟩

/-- The backward scan from a loop end finds its partner. -/
theorem matchingOpen_eq_some_iff (h : sideAt side items closing = some .closing) :
    matchingOpen side items closing = some opening ↔ Partners side items opening closing := by
  rw [matchingOpen, openBefore_eq_some_iff (Nat.le_of_lt (lt_size_of_sideAt h))]
  exact ⟨fun ⟨hlt, hopening, hbalanced⟩ => ⟨hlt, hopening, h, hbalanced⟩,
    fun hpartners => ⟨hpartners.lt, hpartners.opening_eq, hpartners.balanced⟩⟩

end Scans

namespace Partners

variable {opening' closing' : Nat}

/-- A loop start has at most one partner. -/
theorem closing_unique (h : Partners side items opening closing)
    (h' : Partners side items opening closing') : closing = closing' := by
  have hfound := (matchingClose_eq_some_iff h.opening_eq).mpr h
  rw [(matchingClose_eq_some_iff h.opening_eq).mpr h'] at hfound
  exact (Option.some.inj hfound).symm

/-- A loop end has at most one partner. -/
theorem opening_unique (h : Partners side items opening closing)
    (h' : Partners side items opening' closing) : opening = opening' := by
  have hfound := (matchingOpen_eq_some_iff h.closing_eq).mpr h
  rw [(matchingOpen_eq_some_iff h.closing_eq).mpr h'] at hfound
  exact (Option.some.inj hfound).symm

end Partners

/-- A loop start without a partner is one from which the forward scan finds nothing. -/
theorem not_paired_iff_matchingClose (h : sideAt side items position = some .opening) :
    ¬ Paired side items position ↔ matchingClose side items position = none := by
  rw [Option.eq_none_iff_forall_not_mem]
  constructor
  · intro hunpaired closing hfound
    exact hunpaired ⟨closing, .inl ((matchingClose_eq_some_iff h).mp hfound)⟩
  · rintro hnone ⟨partner, hpartners | hpartners⟩
    · exact hnone partner ((matchingClose_eq_some_iff h).mpr hpartners)
    · rw [hpartners.closing_eq] at h
      cases h

/-- A loop end without a partner is one from which the backward scan finds nothing. -/
theorem not_paired_iff_matchingOpen (h : sideAt side items position = some .closing) :
    ¬ Paired side items position ↔ matchingOpen side items position = none := by
  rw [Option.eq_none_iff_forall_not_mem]
  constructor
  · intro hunpaired opening hfound
    exact hunpaired ⟨opening, .inr ((matchingOpen_eq_some_iff h).mp hfound)⟩
  · rintro hnone ⟨partner, hpartners | hpartners⟩
    · rw [hpartners.opening_eq] at h
      cases h
    · exact hnone partner ((matchingOpen_eq_some_iff h).mpr hpartners)

/-- A forward scan ends if more loops end between two positions than it has to close. -/
theorem exists_closeFrom (depth : Nat) (hle : position ≤ stop) (hstop : stop ≤ items.size)
    (h : openBetween side items position stop opened = some left) (hdepth : left + depth < opened) :
    ∃ found < stop, closeFrom side items depth position = some found := by
  induction hmore : stop - position generalizing position depth opened with
  | zero =>
    obtain rfl : position = stop := by omega
    rw [openBetween_self, Option.some.injEq] at h
    omega
  | succ more ih =>
    have hlt : position < stop := by omega
    have hsize : position < items.size := by omega
    rw [openBetween_first hlt hsize] at h
    obtain ⟨opened', hpass, hrest⟩ := Option.bind_eq_some_iff.mp h
    rw [closeFrom_eq hsize]
    cases hside : sideAt side items position with
    | none =>
      rw [hside, pass, Option.some.injEq] at hpass
      exact ih _ hlt hrest (by omega) (by omega)
    | some bracket =>
      rw [hside] at hpass
      cases bracket with
      | opening =>
        rw [pass, Option.some.injEq] at hpass
        exact ih _ hlt hrest (by omega) (by omega)
      | closing =>
        -- the scan ends here, unless it has to close a loop that started on its way
        rw [pass, Option.ite_none_left_eq_some, Option.some.injEq] at hpass
        by_cases hzero : depth = 0
        · exact ⟨position, hlt, by simp [pass, hzero]⟩
        · simp only [pass, hzero, if_false]
          exact ih _ hlt hrest (by omega) (by omega)

/-- A backward scan ends if more loops start between two positions than it has to open. -/
theorem exists_openBefore (depth : Nat) (hle : start ≤ position) (hsize : position ≤ items.size)
    (h : openBetween side items start position opened = some left)
    (hdepth : opened + depth < left) :
    ∃ found ≥ start, openBefore side items depth position = some found := by
  -- an opening on the way back lowers `left` and `depth` together, and a closing raises both, so
  -- that `left` stays above `opened` until the search ends
  induction position generalizing depth left with
  | zero =>
    obtain rfl : start = 0 := by omega
    rw [openBetween_self, Option.some.injEq] at h
    omega
  | succ position ih =>
    rcases Nat.lt_or_ge position start with hlt | hge
    · obtain rfl : start = position + 1 := by omega
      rw [openBetween_self, Option.some.injEq] at h
      omega
    · rw [openBetween_last hge hsize] at h
      obtain ⟨left', hrest, hpass⟩ := Option.bind_eq_some_iff.mp h
      rw [openBefore_succ]
      cases hside : sideAt side items position with
      | none =>
        rw [hside, pass, Option.some.injEq] at hpass
        exact ih _ hge (Nat.le_of_lt hsize) hrest (by omega)
      | some bracket =>
        rw [hside] at hpass
        cases bracket with
        | opening =>
          rw [pass, Option.some.injEq] at hpass
          by_cases hzero : depth = 0
          · exact ⟨position, hge, by simp [hzero]⟩
          · simp only [hzero, if_false]
            exact ih _ hge (Nat.le_of_lt hsize) hrest (by omega)
        | closing =>
          rw [pass, Option.ite_none_left_eq_some, Option.some.injEq] at hpass
          exact ih _ hge (Nat.le_of_lt hsize) hrest (by omega)

/-- In a balanced part of a sequence every loop that starts ends again. -/
theorem exists_partners_of_openBetween (hstop : stop ≤ items.size)
    (h : openBetween side items start stop 0 = some 0) (hstart : start ≤ opening)
    (hopening : opening < stop) (hside : sideAt side items opening = some .opening) :
    ∃ closing < stop, Partners side items opening closing := by
  rw [openBetween_trans hstart (Nat.le_of_lt hopening)] at h
  obtain ⟨opened, -, hafter⟩ := Option.bind_eq_some_iff.mp h
  rw [openBetween_first hopening (lt_size_of_sideAt hside), hside, pass, Option.bind_some] at hafter
  obtain ⟨found, hlt, hfound⟩ := exists_closeFrom 0 hopening hstop hafter (by omega)
  exact ⟨found, hlt, (matchingClose_eq_some_iff hside).mp hfound⟩

/-- In a balanced part of a sequence every bracket has a partner. -/
theorem paired_of_openBetween (hstop : stop ≤ items.size)
    (h : openBetween side items start stop 0 = some 0) (hstart : start ≤ position)
    (hposition : position < stop) (hbracket : sideAt side items position ≠ none) :
    Paired side items position := by
  have hsize : position < items.size := Nat.lt_of_lt_of_le hposition hstop
  obtain ⟨bracket, hside⟩ := Option.ne_none_iff_exists'.mp hbracket
  cases bracket with
  | opening =>
    obtain ⟨closing, -, hpartners⟩ :=
      exists_partners_of_openBetween hstop h hstart hposition hside
    exact ⟨closing, .inl hpartners⟩
  | closing =>
    -- what a loop end closes was opened before it
    rw [openBetween_trans hstart (Nat.le_of_lt hposition)] at h
    obtain ⟨opened, hbefore, hafter⟩ := Option.bind_eq_some_iff.mp h
    rw [openBetween_first hposition hsize] at hafter
    obtain ⟨opened', hpass, hrest⟩ := Option.bind_eq_some_iff.mp hafter
    rw [hside, pass, Option.ite_none_left_eq_some, Option.some.injEq] at hpass
    obtain ⟨found, -, hfound⟩ :=
      exists_openBefore 0 hstart (Nat.le_of_lt hsize) hbefore (by omega)
    exact ⟨found, .inr ((matchingOpen_eq_some_iff hside).mp hfound)⟩

end Bracket

end TapeLang

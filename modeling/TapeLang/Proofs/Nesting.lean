import TapeLang.Block
import TapeLang.Program

/-!
# Balanced sequences

Counting how many loops are open decides whether a sequence of items has a nesting, and the
usual definition of balanced brackets, `Program.Balanced`, agrees with this count.

* `Block.spells_of_ofItems?`: the nesting that is found for a sequence is spelled by it.
* `Bracket.exists_ofItems?_of_openAfter`: a sequence in which no loop stays open has a nesting.
* `Bracket.matched_iff_openAfter`: brackets match if and only if the count comes back to zero.
* `Program.balanced_iff_openAfter`: a program is balanced if and only if the count comes back to
  zero.
-/

namespace TapeLang

variable {α : Type} {side : α → Option Bracket}

namespace Block

/-- A sequence of items spells a block. -/
inductive Spells (side : α → Option Bracket) : List α → Block α → Prop
  | done : Spells side [] .done
  | op {item : α} {items : List α} {rest : Block α} (hitem : side item = none)
      (hrest : Spells side items rest) : Spells side (item :: items) (.op item rest)
  | loop {opening closing : α} {inner items : List α} {body rest : Block α}
      (hopening : side opening = some .opening) (hclosing : side closing = some .closing)
      (hbody : Spells side inner body) (hrest : Spells side items rest) :
      Spells side (opening :: (inner ++ closing :: items)) (.loop body rest)

/-- A sequence of items spells what has been read of a sequence from its end: a block, and after
each loop end that is not complete another one. -/
def Suffix.Spelled (side : α → Option Bracket) :
    List α → Block α → List (Block α) → Prop
  | items, inner, [] => Spells side items inner
  | items, inner, rest :: outer =>
    ∃ before closing after, items = before ++ closing :: after ∧
      side closing = some .closing ∧ Spells side before inner ∧ Spelled side after rest outer

/-- What is put in front of a sequence is put in front of its innermost block. -/
theorem Suffix.Spelled.append {items : List α} {inner : Block α} {outer : List (Block α)}
    (h : Suffix.Spelled side items inner outer) (front : List α) (inner' : Block α)
    (hfront : ∀ items, Spells side items inner → Spells side (front ++ items) inner') :
    Suffix.Spelled side (front ++ items) inner' outer := by
  cases outer with
  | nil => exact hfront items h
  | cons rest outer =>
    obtain ⟨before, closing, after, rfl, hclosing, hbefore, hafter⟩ := h
    exact ⟨front ++ before, closing, after, by simp, hclosing, hfront before hbefore, hafter⟩

/-- What is read of a sequence from its end is spelled by it. -/
theorem spelled_of_suffix {items : List α} {read : Suffix α}
    (h : suffix side items = some read) : Suffix.Spelled side items read.inner read.outer := by
  induction items generalizing read with
  | nil =>
    cases h
    exact .done
  | cons item items ih =>
    rw [suffix, List.foldr_cons] at h
    obtain ⟨later, hlater, hpush⟩ := Option.bind_eq_some_iff.mp h
    have hspelled := ih hlater
    -- the item goes in front of what has been read behind it, by the side it stands on
    unfold Suffix.push at hpush
    split at hpush
    · next hside =>
      cases hpush
      exact ⟨[], item, items, rfl, hside, .done, hspelled⟩
    · next hside =>
      split at hpush
      · next rest outer houter =>
        cases hpush
        rw [houter] at hspelled
        -- the loop that the item starts ends where the innermost block stops
        obtain ⟨before, closing, after, rfl, hclosing, hbefore, hafter⟩ := hspelled
        have hloop := hafter.append (item :: (before ++ [closing]))
          (.loop later.inner rest) fun items hitems => by
            simpa using Spells.loop hside hclosing hbefore hitems
        simpa using hloop
      · cases hpush
    · next hside =>
      cases hpush
      exact hspelled.append [item] _ fun items hitems => .op hside hitems

/-- The nesting that is found for a sequence is spelled by it. -/
theorem spells_of_ofItems? {items : List α} {block : Block α}
    (h : ofItems? side items = some block) : Spells side items block := by
  unfold ofItems? at h
  split at h
  · next hsuffix =>
    cases h
    exact spelled_of_suffix hsuffix
  · cases h

end Block

namespace Bracket

/-- The number of loops that are open after a sequence, if `opened` are open before it; `none` if
the sequence ends a loop that is not open. -/
def openAfter (side : α → Option Bracket) : Nat → List α → Option Nat
  | opened, [] => some opened
  | opened, item :: items =>
    match side item with
    | none => openAfter side opened items
    | some .opening => openAfter side (opened + 1) items
    | some .closing =>
      match opened with
      | 0 => none
      | opened + 1 => openAfter side opened items

/-- Sequences are counted through one after another. -/
theorem openAfter_append (opened : Nat) (items more : List α) :
    openAfter side opened (items ++ more) =
      (openAfter side opened items).bind fun opened => openAfter side opened more := by
  induction items generalizing opened with
  | nil => rfl
  | cons item items ih =>
    simp only [List.cons_append, openAfter, ih]
    cases side item with
    | none => rfl
    | some bracket =>
      cases bracket with
      | opening => rfl
      | closing => cases opened <;> rfl

/-- Items that are no brackets open and end no loop. -/
theorem openAfter_of_side_eq_none {items : List α} (h : ∀ item ∈ items, side item = none)
    (opened : Nat) : openAfter side opened items = some opened := by
  induction items with
  | nil => rfl
  | cons item items ih =>
    simp only [openAfter, h item List.mem_cons_self]
    exact ih fun item hitem => h item (List.mem_cons_of_mem _ hitem)

/-- A sequence in which all the loops end that are open before it can be read from its end. -/
theorem exists_suffix_of_openAfter {opened : Nat} {items : List α}
    (h : openAfter side opened items = some 0) :
    ∃ read, Block.suffix side items = some read ∧ read.outer.length = opened := by
  -- read from its end, a sequence has as many blocks outside the innermost one as loops are open
  -- before it
  induction items generalizing opened with
  | nil =>
    cases h
    exact ⟨⟨.done, []⟩, rfl, rfl⟩
  | cons item items ih =>
    simp only [openAfter] at h
    split at h
    · next hside =>
      obtain ⟨read, hread, hlength⟩ := ih h
      refine ⟨⟨.op item read.inner, read.outer⟩, ?_, hlength⟩
      rw [Block.suffix] at hread ⊢
      simp [hread, Block.Suffix.push, hside]
    · next hside =>
      obtain ⟨⟨inner, outer⟩, hread, hlength⟩ := ih h
      -- one more loop is open behind the item, so that there is a block to go on with
      obtain ⟨rest, outer, rfl⟩ := List.exists_cons_of_length_eq_add_one hlength
      refine ⟨⟨.loop inner rest, outer⟩, ?_, by simpa using hlength⟩
      rw [Block.suffix] at hread ⊢
      simp [hread, Block.Suffix.push, hside]
    · next hside =>
      split at h
      · cases h
      · obtain ⟨read, hread, hlength⟩ := ih h
        refine ⟨⟨.done, read.inner :: read.outer⟩, ?_, by simp [hlength]⟩
        rw [Block.suffix] at hread ⊢
        simp [hread, Block.Suffix.push, hside]

/-- A sequence in which no loop stays open and none ends that is not open has a nesting. -/
theorem exists_ofItems?_of_openAfter {items : List α} (h : openAfter side 0 items = some 0) :
    ∃ block, Block.ofItems? side items = some block := by
  obtain ⟨⟨block, outer⟩, hread, hlength⟩ := exists_suffix_of_openAfter h
  obtain rfl := List.eq_nil_of_length_eq_zero hlength
  exact ⟨block, by simp [Block.ofItems?, hread]⟩

end Bracket

namespace Bracket

/-- The number of items that stand on a side of a loop. -/
def number (side : α → Option Bracket) (bracket : Bracket) (items : List α) : Nat :=
  items.countP fun item => side item = some bracket

/-- The brackets of a sequence match: no prefix has more loop ends than loop starts, and there are
as many of the ones as of the others. -/
structure Matched (side : α → Option Bracket) (items : List α) : Prop where
  /-- No prefix ends more loops than it starts. -/
  prefixes : ∀ length, number side .closing (items.take length) ≤
    number side .opening (items.take length)
  /-- As many loops end as start. -/
  total : number side .closing items = number side .opening items

/-- A property of all prefixes is one of the empty prefix and of those that are not empty. -/
private theorem forall_take_cons {p : List α → Prop} {item : α} {items : List α} :
    (∀ length, p ((item :: items).take length)) ↔
      p [] ∧ ∀ length, p (item :: items.take length) := by
  constructor
  · intro h
    exact ⟨h 0, fun length => h (length + 1)⟩
  · rintro ⟨hnil, hcons⟩ length
    cases length with
    | zero => exact hnil
    | succ length => exact hcons length

/-- The count of the open loops is the number of loop starts less the number of loop ends, provided
that this is no less than zero all along. -/
theorem openAfter_eq_some_iff {opened left : Nat} {items : List α} :
    openAfter side opened items = some left ↔
      (∀ length, number side .closing (items.take length) ≤
        opened + number side .opening (items.take length)) ∧
      opened + number side .opening items = left + number side .closing items := by
  induction items generalizing opened with
  | nil => simp [openAfter, number]
  | cons item items ih =>
    -- the prefixes that are not empty begin with the item, which changes the count for the others
    rw [forall_take_cons (p := fun (items : List α) =>
      number side .closing items ≤ opened + number side .opening items)]
    simp only [openAfter]
    cases hside : side item with
    | none => simp [number, hside, ih]
    | some bracket =>
      cases bracket with
      | opening =>
        have hstep : ∀ a b : Nat, a ≤ opened + (b + 1) ↔ a ≤ opened + 1 + b := by omega
        simp [number, hside, ih, hstep]
        omega
      | closing =>
        cases opened with
        | zero =>
          -- the item alone is a prefix with an end too many
          simp only [number, List.countP_cons, hside, reduceCtorEq, false_iff, not_and]
          intro ⟨_, hprefixes⟩
          have := hprefixes 0
          simp at this
        | succ opened =>
          have hstep : ∀ a b : Nat, a + 1 ≤ opened + 1 + b ↔ a ≤ opened + b := by omega
          simp [number, hside, ih, hstep]
          omega

/-- The brackets of a sequence match if and only if no loop is open after it, and none ends that is
not open. -/
theorem matched_iff_openAfter {items : List α} :
    Matched side items ↔ openAfter side 0 items = some 0 := by
  rw [openAfter_eq_some_iff]
  simp only [Nat.zero_add]
  exact ⟨fun ⟨hprefixes, htotal⟩ => ⟨hprefixes, htotal.symm⟩,
    fun ⟨hprefixes, htotal⟩ => ⟨hprefixes, htotal.symm⟩⟩

end Bracket

/-- The brackets of a program match: no prefix has more loop ends than loop starts, and there are
as many of the ones as of the others. -/
structure Program.Balanced (program : Program) : Prop where
  /-- No prefix ends more loops than it starts. -/
  prefixes : ∀ length, (program.instrs.toList.take length).count .loopEnd ≤
    (program.instrs.toList.take length).count .loopStart
  /-- As many loops end as start. -/
  total : program.instrs.toList.count .loopEnd = program.instrs.toList.count .loopStart

namespace Instr

/-- Only a loop start stands on the opening side. -/
theorem eq_loopStart_of_side {instr : Instr} (h : instr.side = some .opening) :
    instr = loopStart := by
  cases instr <;> simp [side] at h ⊢

/-- Only a loop end stands on the closing side. -/
theorem eq_loopEnd_of_side {instr : Instr} (h : instr.side = some .closing) :
    instr = loopEnd := by
  cases instr <;> simp [side] at h ⊢

/-- The instructions on the opening side are the loop starts. -/
theorem count_loopStart (instrs : List Instr) :
    instrs.count .loopStart = Bracket.number Instr.side .opening instrs :=
  List.countP_congr fun instr _ => by cases instr <;> decide

/-- The instructions on the closing side are the loop ends. -/
theorem count_loopEnd (instrs : List Instr) :
    instrs.count .loopEnd = Bracket.number Instr.side .closing instrs :=
  List.countP_congr fun instr _ => by cases instr <;> decide

end Instr

namespace Program

/-- A program is balanced if and only if the brackets of its instructions match. -/
theorem balanced_iff_matched {program : Program} :
    program.Balanced ↔ Bracket.Matched Instr.side program.instrs.toList := by
  constructor
  · rintro ⟨hprefixes, htotal⟩
    simp only [Instr.count_loopStart, Instr.count_loopEnd] at hprefixes htotal
    exact ⟨hprefixes, htotal⟩
  · rintro ⟨hprefixes, htotal⟩
    simp only [← Instr.count_loopStart, ← Instr.count_loopEnd] at hprefixes htotal
    exact ⟨hprefixes, htotal⟩

/-- A program is balanced if and only if no loop is open after it, and none ends that is not
open. -/
theorem balanced_iff_openAfter {program : Program} :
    program.Balanced ↔ Bracket.openAfter Instr.side 0 program.instrs.toList = some 0 :=
  balanced_iff_matched.trans Bracket.matched_iff_openAfter

end Program

end TapeLang

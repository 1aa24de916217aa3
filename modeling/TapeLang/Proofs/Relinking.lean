import TapeLang.Native.Block
import TapeLang.Proofs.Compilation
import TapeLang.Proofs.Partners

/-!
# Relinked streams

Native code takes no notice of the targets of jumps. What a stream is to native code is found out
by giving each jump the index of its partner as its target: the result is the layout of the block
that the ops spell, whatever the targets were before.

* `relinked`: the ops with the targets that their nesting gives them.
* `Op.LinkedAs`: how an op of a stream is linked anew.
* `Bracket.partners_of_spells`: the brackets of a loop are partners.
* `toList_relinked`: a relinked stream is a laid-out block.
* `linkedAs_of_relinked`: the jumps of a relinked stream lead to their partners.
-/

namespace TapeLang

namespace Block

variable {α : Type} {side : α → Option Bracket} {items : List α} {block : Block α}

/-- A sequence that spells a block is as long as the block. -/
theorem Spells.length_eq (h : Spells side items block) : items.length = block.size := by
  induction h with
  | done => rfl
  | op _ _ ih => rw [List.length_cons, ih, size]
  | loop _ _ _ _ ihbody ihrest =>
    rw [List.length_cons, List.length_append, List.length_cons, ihbody, ihrest, size]
    omega

/-- After a sequence that spells a block the same loops are open as before. -/
theorem Spells.openAfter_eq (h : Spells side items block) (opened : Nat) :
    Bracket.openAfter side opened items = some opened := by
  induction h generalizing opened with
  | done => rfl
  | op hitem _ ih =>
    simp only [Bracket.openAfter, hitem]
    exact ih opened
  | loop hopening hclosing _ _ ihbody ihrest =>
    simp only [Bracket.openAfter, hopening, Bracket.openAfter_append, ihbody, hclosing,
      Option.bind_some]
    exact ihrest opened

/-- The items of a block are items of the sequence that spells it, but no brackets. -/
theorem Spells.all (h : Spells side items block) :
    block.All fun item => item ∈ items ∧ side item = none := by
  induction h with
  | done => trivial
  | @op item items rest hitem _ ih =>
    exact ⟨⟨List.mem_cons_self, hitem⟩,
      ih.imp fun other hother => ⟨List.mem_cons_of_mem _ hother.1, hother.2⟩⟩
  | @loop opening closing inner items body rest _ _ _ _ ihbody ihrest =>
    refine ⟨ihbody.imp fun item hitem => ⟨?_, hitem.2⟩, ihrest.imp fun item hitem => ⟨?_, hitem.2⟩⟩
    · exact List.mem_cons_of_mem _ (List.mem_append_left _ hitem.1)
    · exact List.mem_cons_of_mem _ (List.mem_append_right _ (List.mem_cons_of_mem _ hitem.1))

/-- What holds of all items of a block and of all brackets holds of all items of the sequence that
spells it. -/
theorem Spells.forall_mem {p : α → Prop} (h : Spells side items block) (hall : block.All p)
    (hbrackets : ∀ item, side item ≠ none → p item) : ∀ item ∈ items, p item := by
  have hbracket : ∀ {item bracket}, side item = some bracket → p item := fun hside =>
    hbrackets _ (hside.trans_ne (Option.some_ne_none _))
  induction h with
  | done => simp
  | op _ _ ih => exact List.forall_mem_cons.mpr ⟨hall.1, ih hall.2⟩
  | loop hopening hclosing _ _ ihbody ihrest =>
    refine List.forall_mem_cons.mpr ⟨hbracket hopening, List.forall_mem_append.mpr ⟨?_, ?_⟩⟩
    · exact ihbody hall.1
    · exact List.forall_mem_cons.mpr ⟨hbracket hclosing, ihrest hall.2⟩

/-- A block without jumps among its items is spelled by its layout. -/
theorem spells_layout {block : Block Op} (h : block.All fun op => op.side = none) (start : Nat) :
    Spells Op.side (block.layout start) block := by
  induction block generalizing start with
  | done => exact .done
  | op item rest ih => exact .op h.1 (ih h.2 _)
  | loop body rest ihbody ihrest => exact .loop rfl rfl (ihbody h.1 _) (ihrest h.2 _)

end Block

/-- The brackets of a loop are partners. -/
theorem Bracket.partners_of_spells {α : Type} {side : α → Option Bracket} {items : Array α}
    {before inner after : List α} {opening closing : α} {body : Block α}
    (hitems : items.toList = before ++ opening :: (inner ++ closing :: after))
    (hopening : side opening = some .opening) (hclosing : side closing = some .closing)
    (hbody : Block.Spells side inner body) :
    Partners side items before.length (before.length + body.size + 1) where
  lt := by omega
  opening_eq := by
    rw [sideAt, ← Array.getElem?_toList, hitems, List.getElem?_append_right (Nat.le_refl _),
      Nat.sub_self, List.getElem?_cons_zero]
    exact hopening
  closing_eq := by
    rw [sideAt, ← Array.getElem?_toList, hitems, ← hbody.length_eq, Block.getElem?_closing]
    exact hclosing
  balanced := by
    have hinner : (items.extract (before.length + 1) (before.length + body.size + 1)).toList =
        inner := by
      have hlength : before.length + body.size + 1 - (before.length + 1) = inner.length := by
        rw [hbody.length_eq]
        omega
      rw [Array.toList_extract, hitems, List.extract, hlength, ← List.drop_drop, List.drop_left,
        List.drop_one, List.tail_cons, List.take_left]
    rw [openBetween, hinner]
    exact hbody.openAfter_eq 0

/-- Only a jump stands on the opening side. -/
theorem Op.exists_of_opening {op : Op} (h : op.side = some .opening) :
    ∃ target, op = .jumpIfZero target := by
  cases op <;> first | exact ⟨_, rfl⟩ | cases h

/-- Only a jump stands on the closing side. -/
theorem Op.exists_of_closing {op : Op} (h : op.side = some .closing) :
    ∃ target, op = .jumpIfNotZero target := by
  cases op <;> first | exact ⟨_, rfl⟩ | cases h

/-- The op at an index, with the index of its partner as the target of its jump. A jump without a
partner keeps its target. -/
def Op.relinkedAt (ops : Array Op) (index : Nat) : Op → Op
  | .jumpIfZero target => .jumpIfZero ((Bracket.matchingClose Op.side ops index).getD target)
  | .jumpIfNotZero target => .jumpIfNotZero ((Bracket.matchingOpen Op.side ops index).getD target)
  | op => op

/-- The ops with the targets that the nesting of their jumps gives them. -/
def relinked (ops : Array Op) : Array Op :=
  ops.mapIdx (Op.relinkedAt ops)

/-- No ops come or go. -/
theorem size_relinked (ops : Array Op) : (relinked ops).size = ops.size :=
  Array.size_mapIdx

/-- An op that is no jump is not changed. -/
theorem Op.relinkedAt_of_side_eq_none {op : Op} (h : op.side = none) (ops : Array Op)
    (index : Nat) : op.relinkedAt ops index = op := by
  cases op <;> first | rfl | cases h

/-- A part of a stream that spells a block is relinked to the layout of the block. -/
theorem map_relinkedAt_of_spells {ops : Array Op} (before after : List Op) {items : List Op}
    {block : Block Op} (h : Block.Spells Op.side items block)
    (hops : ops.toList = before ++ items ++ after) :
    (items.zipIdx before.length).map (fun entry => entry.1.relinkedAt ops entry.2) =
      block.layout before.length := by
  induction h generalizing before after with
  | done => rfl
  | @op item items rest hside _ ih =>
    have hrest := ih (before ++ [item]) after (by simpa using hops)
    rw [List.length_append, List.length_singleton] at hrest
    have hitem : item.relinkedAt ops before.length = item := Op.relinkedAt_of_side_eq_none hside _ _
    rw [List.zipIdx_cons, List.map_cons, hrest, hitem, Block.layout]
  | @loop opening closing inner items body rest hopening hclosing hbody _ ihbody ihrest =>
    -- the brackets of the loop are partners in the whole stream, so that both scans find them
    have hpartners : Bracket.Partners Op.side ops before.length (before.length + body.size + 1) :=
      Bracket.partners_of_spells (by simpa using hops) hopening hclosing hbody
    have hclose := (Bracket.matchingClose_eq_some_iff hpartners.opening_eq).mpr hpartners
    have hopen := (Bracket.matchingOpen_eq_some_iff hpartners.closing_eq).mpr hpartners
    have hinner := ihbody (before ++ [opening]) (closing :: items ++ after) (by simpa using hops)
    have hrest := ihrest (before ++ opening :: (inner ++ [closing])) after (by simpa using hops)
    have hfirst : opening.relinkedAt ops before.length =
        .jumpIfZero (before.length + body.size + 1) := by
      cases opening <;> simp [Op.side] at hopening
      rw [Op.relinkedAt, hclose, Option.getD_some]
    have hlast : closing.relinkedAt ops (before.length + body.size + 1) =
        .jumpIfNotZero before.length := by
      cases closing <;> simp [Op.side] at hclosing
      rw [Op.relinkedAt, hopen, Option.getD_some]
    have hindex : before.length + 1 + body.size = before.length + body.size + 1 := by omega
    have hbehind : (before ++ opening :: (inner ++ [closing])).length =
        before.length + body.size + 2 := by
      simp [hbody.length_eq, Nat.add_assoc]
    rw [List.length_append, List.length_singleton] at hinner
    rw [hbehind] at hrest
    rw [List.zipIdx_cons, List.map_cons, List.zipIdx_append, List.map_append, hinner,
      hbody.length_eq, List.zipIdx_cons, List.map_cons, hindex, hrest, hfirst, hlast, Block.layout]

/-- A relinked stream is the layout of the block that its ops spell. -/
theorem toList_relinked {ops : Array Op} {block : Block Op} (h : Block.ofOps ops = some block) :
    (relinked ops).toList = block.layout 0 := by
  have hspells := Block.spells_of_ofItems? h
  rw [relinked, Array.toList_mapIdx, List.mapIdx_eq_zipIdx_map]
  exact map_relinkedAt_of_spells [] [] hspells (by simp)

/-- In properly nested ops every jump has a partner. -/
theorem Block.paired_of_ofOps {ops : Array Op} {block : Block Op} (h : Block.ofOps ops = some block)
    {index : Nat} (hjump : Bracket.sideAt Op.side ops index ≠ none) :
    Bracket.Paired Op.side ops index := by
  obtain ⟨bracket, hside⟩ := Option.ne_none_iff_exists'.mp hjump
  have hbalanced : Bracket.openBetween Op.side ops 0 ops.size 0 = some 0 := by
    rw [Bracket.openBetween, Array.extract_size]
    exact (Block.spells_of_ofItems? h).openAfter_eq 0
  exact Bracket.paired_of_openBetween (Nat.le_refl _) hbalanced (Nat.zero_le _)
    (Bracket.lt_size_of_sideAt hside) hjump

/-- How an op of a stream is linked anew: a jump gets the index of its partner in the stream as its
target, whatever its target was, and any other op stays as it is. -/
inductive Op.LinkedAs (ops : Array Op) (index : Nat) : Op → Op → Prop
  /-- A loop start leads to the loop end of the same loop. -/
  | loopStart {target closing : Nat} (hpartners : Bracket.Partners Op.side ops index closing) :
      LinkedAs ops index (.jumpIfZero target) (.jumpIfZero closing)
  /-- A loop end leads to the loop start of the same loop. -/
  | loopEnd {target opening : Nat} (hpartners : Bracket.Partners Op.side ops opening index) :
      LinkedAs ops index (.jumpIfNotZero target) (.jumpIfNotZero opening)
  /-- Any other op is kept. -/
  | other {op : Op} (hside : op.side = none) : LinkedAs ops index op op

/-- In properly nested ops the jumps of the relinked stream lead to their partners, and the ops
between them are those that were there before. -/
theorem linkedAs_of_relinked {ops : Array Op} {block : Block Op}
    (h : Block.ofOps ops = some block) {index : Nat} {op : Op} (hop : ops[index]? = some op) :
    ∃ linked, (relinked ops)[index]? = some linked ∧ Op.LinkedAs ops index op linked := by
  have hrelinked : (relinked ops)[index]? = some (op.relinkedAt ops index) := by
    rw [relinked, Array.getElem?_mapIdx, hop, Option.map_some]
  refine ⟨_, hrelinked, ?_⟩
  have hside : Bracket.sideAt Op.side ops index = op.side := Bracket.sideAt_of_get hop
  -- a jump of a stream with a block has a partner, which the relinking finds
  cases op with
  | jumpIfZero target =>
    obtain ⟨closing, hpartners | hpartners⟩ :=
      Block.paired_of_ofOps h (hside.trans_ne (Option.some_ne_none _))
    · rw [Op.relinkedAt, (Bracket.matchingClose_eq_some_iff hside).mpr hpartners]
      exact .loopStart hpartners
    · have hclosing := hside.symm.trans hpartners.closing_eq
      cases hclosing
  | jumpIfNotZero target =>
    obtain ⟨opening, hpartners | hpartners⟩ :=
      Block.paired_of_ofOps h (hside.trans_ne (Option.some_ne_none _))
    · have hopening := hside.symm.trans hpartners.opening_eq
      cases hopening
    · rw [Op.relinkedAt, (Bracket.matchingOpen_eq_some_iff hside).mpr hpartners]
      exact .loopEnd hpartners
  | _ => exact .other rfl

end TapeLang

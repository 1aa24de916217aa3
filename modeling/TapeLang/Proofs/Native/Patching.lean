import Mathlib
import TapeLang.Proofs.Native.Emission
import TapeLang.Proofs.Native.Frame

/-!
# Patching

A code buffer takes bytes at its end and lets bytes that it has be overwritten. Whatever is asked
of it, in whatever order, each byte is in the end the one that was written there last. The four
bytes that are filled in for a branch, read as a signed number, lead from its end to its target.

## Main definitions

* `Edit`: what can be asked of a code buffer, and `Edit.afterAll`: what it makes of the buffer.
* `Edit.Fits`: all bytes that are to be overwritten are there.
* `Edit.WritesAt`: one of several edits writes the byte at an index.
* `X86.signedOperand`: four bytes as a signed number.

## Main results

* `Edit.exists_apply_iff`, `Edit.size_after`: when an edit is carried out, and how it changes the
  size.
* `Edit.getElem?_after`: what an edit does to a single byte.
* `Edit.last_write_wins`: what several edits do to a single byte.
* `patches_exact`: all this together, and what a filled-in branch says.
-/

namespace TapeLang

/-- What is asked of a code buffer. -/
inductive Edit where
  /-- Bytes are emitted. -/
  | emit (bytes : List UInt8)
  /-- One byte is emitted. -/
  | emitByte (byte : UInt8)
  /-- A word is emitted. -/
  | emitWord (word : UInt32)
  /-- The byte at an offset is overwritten. -/
  | patchByte (offset : Nat) (byte : UInt8)
  /-- The four bytes from an offset on are overwritten with a word. -/
  | patchWord (offset : Nat) (word : UInt32)

namespace Edit

/-- Carries out an edit, if it is not refused. -/
def apply : Edit → CodeBuffer → Except CodegenError CodeBuffer
  | emit bytes, buffer => .ok (buffer.emit bytes)
  | emitByte byte, buffer => .ok (buffer.emitByte byte)
  | emitWord word, buffer => .ok (buffer.emitWord word)
  | patchByte offset byte, buffer => buffer.patchByte offset byte
  | patchWord offset word, buffer => buffer.patchWord offset word

/-- The buffer after an edit. One that is refused leaves nothing behind. -/
def after (buffer : CodeBuffer) (edit : Edit) : CodeBuffer :=
  match edit.apply buffer with
  | .ok next => next
  | .error _ => buffer

/-- The buffer after some edits, one after another. -/
def afterAll (edits : List Edit) : CodeBuffer :=
  edits.foldl after .empty

/-- The bytes that an edit writes. -/
def bytes : Edit → List UInt8
  | emit bytes => bytes
  | emitByte byte | patchByte _ byte => [byte]
  | emitWord word | patchWord _ word => X86.littleEndian word

/-- The offset at which an edit overwrites bytes. -/
def offset? : Edit → Option Nat
  | emit _ | emitByte _ | emitWord _ => none
  | patchByte offset _ | patchWord offset _ => some offset

/-- Where the bytes of an edit go in a buffer of `size` bytes. -/
def start (size : Nat) (edit : Edit) : Nat :=
  edit.offset?.getD size

/-- How many bytes an edit adds. -/
def growth (edit : Edit) : Nat :=
  match edit.offset? with
  | some _ => 0
  | none => edit.bytes.length

/-- How many bytes some edits add. -/
def emitted (edits : List Edit) : Nat :=
  (edits.map growth).sum

/-- If the edit overwrites bytes, all of them are in a buffer of `size` bytes. -/
def Fits (size : Nat) (edit : Edit) : Prop :=
  ∀ offset ∈ edit.offset?, ∀ k < edit.bytes.length, offset + k < size

/-- The edit writes the byte at an index of a buffer that has `size` bytes before. -/
def Covers (size : Nat) (edit : Edit) (index : Nat) : Prop :=
  edit.Fits size ∧ edit.start size ≤ index ∧ index < edit.start size + edit.bytes.length

/-- The edit with this number is one of those that write the byte at an index. -/
def WritesAt (edits : List Edit) (index number : Nat) : Prop :=
  ∃ edit, edits[number]? = some edit ∧ edit.Covers (emitted (edits.take number)) index

variable {edit : Edit} {edits : List Edit} {buffer : CodeBuffer} {index number : Nat}

/-! ### One edit -/

/-- An edit that overwrites bytes overwrites one at least. -/
theorem length_bytes_pos {offset : Nat} (h : edit.offset? = some offset) :
    0 < edit.bytes.length := by
  cases edit with
  | patchByte => exact Nat.one_pos
  | patchWord => exact Nat.succ_pos 3
  | _ => cases h

/-- The bytes fit if the last of them does. -/
theorem fits_iff_of_offset {offset size : Nat} (h : edit.offset? = some offset) :
    edit.Fits size ↔ offset + edit.bytes.length ≤ size := by
  have hpos := length_bytes_pos h
  simp only [Fits, h, Option.mem_some_iff, forall_eq']
  constructor
  · intro hall
    have := hall (edit.bytes.length - 1) (by omega)
    omega
  · intro hle k hk
    omega

/-- Emitted bytes always fit. -/
theorem fits_of_offset_eq_none (h : edit.offset? = none) (size : Nat) : edit.Fits size := by
  simp [Fits, h]

/-- What an edit does that is not refused: it emits its bytes, or overwrites as many. -/
theorem apply_of_fits (h : edit.Fits buffer.size) :
    edit.apply buffer = .ok (match edit.offset? with
      | some offset => buffer.overwrite offset edit.bytes
      | none => buffer.emit edit.bytes) := by
  cases edit with
  | patchByte offset byte =>
    have hfits : offset < buffer.size := (fits_iff_of_offset rfl).mp h
    rw [apply, CodeBuffer.patchByte, if_pos hfits]
    rfl
  | patchWord offset word =>
    have hfits : offset + 4 ≤ buffer.size := (fits_iff_of_offset rfl).mp h
    rw [apply, CodeBuffer.patchWord, if_pos hfits]
    rfl
  | _ => rfl

/-- An edit whose bytes are not all there is refused. -/
theorem apply_of_not_fits (h : ¬ edit.Fits buffer.size) :
    ∃ error, edit.apply buffer = .error error := by
  cases edit with
  | patchByte offset byte =>
    have hfits : ¬ offset < buffer.size := fun hlt => h ((fits_iff_of_offset rfl).mpr hlt)
    exact ⟨_, by rw [apply, CodeBuffer.patchByte, if_neg hfits]⟩
  | patchWord offset word =>
    have hfits : ¬ offset + 4 ≤ buffer.size := fun hle => h ((fits_iff_of_offset rfl).mpr hle)
    exact ⟨_, by rw [apply, CodeBuffer.patchWord, if_neg hfits]⟩
  | _ => exact absurd (fits_of_offset_eq_none rfl _) h

/-- An edit is carried out if and only if all bytes that it overwrites are there. -/
theorem exists_apply_iff (edit : Edit) (buffer : CodeBuffer) :
    (∃ next, edit.apply buffer = .ok next) ↔ edit.Fits buffer.size := by
  constructor
  · rintro ⟨next, hnext⟩
    by_contra hfits
    obtain ⟨error, herror⟩ := apply_of_not_fits hfits
    cases hnext.symm.trans herror
  · intro hfits
    exact ⟨_, apply_of_fits hfits⟩

/-- An edit that is refused changes nothing. -/
theorem after_of_not_fits (h : ¬ edit.Fits buffer.size) : after buffer edit = buffer := by
  obtain ⟨error, herror⟩ := apply_of_not_fits h
  rw [after, herror]

/-- Overwriting keeps the number of bytes. -/
theorem size_after (buffer : CodeBuffer) (edit : Edit) :
    (after buffer edit).size = buffer.size + edit.growth := by
  by_cases hfits : edit.Fits buffer.size
  · rw [after, apply_of_fits hfits, growth]
    cases edit.offset? with
    | none => exact CodeBuffer.size_emit buffer edit.bytes
    | some offset => exact CodeBuffer.size_overwrite buffer offset edit.bytes
  · rw [after_of_not_fits hfits, growth]
    cases hoffset : edit.offset? with
    | none => exact absurd (fits_of_offset_eq_none hoffset _) hfits
    | some offset => rfl

/-- The bytes that are overwritten are the given ones. -/
theorem getElem?_overwrite_of_mem {offset : Nat} {bytes : List UInt8}
    (hfits : offset + bytes.length ≤ buffer.size) (hle : offset ≤ index)
    (hlt : index < offset + bytes.length) :
    (buffer.overwrite offset bytes).bytes[index]? = bytes[index - offset]? := by
  have hsize : buffer.size = buffer.bytes.toList.length := Array.length_toList.symm
  rw [← Array.getElem?_toList, CodeBuffer.toList_overwrite hfits, List.append_assoc,
    List.getElem?_append_right (by rw [List.length_take]; omega), List.length_take,
    Nat.min_eq_left (by omega), List.getElem?_append_left (by omega)]

/-- An edit writes its bytes where it covers the buffer, and leaves all others alone. -/
theorem getElem?_after (buffer : CodeBuffer) (edit : Edit) (index : Nat) :
    (edit.Covers buffer.size index →
      (after buffer edit).bytes[index]? = edit.bytes[index - edit.start buffer.size]?) ∧
    (¬ edit.Covers buffer.size index →
      (after buffer edit).bytes[index]? = buffer.bytes[index]?) := by
  have hsize : buffer.size = buffer.bytes.toList.length := Array.length_toList.symm
  by_cases hfits : edit.Fits buffer.size
  · rw [after, apply_of_fits hfits]
    simp only [Covers, hfits, true_and, start]
    -- an edit overwrites bytes that are there, or goes behind them
    cases hoffset : edit.offset? with
    | some offset =>
      have hle := (fits_iff_of_offset hoffset).mp hfits
      refine ⟨fun hcovers => getElem?_overwrite_of_mem hle hcovers.1 hcovers.2, fun hnot => ?_⟩
      refine CodeBuffer.getElem?_overwrite ?_
      rw [Option.getD_some] at hnot
      omega
    | none =>
      simp only [Option.getD_none]
      rw [← Array.getElem?_toList, CodeBuffer.toList_bytes_emit, ← Array.getElem?_toList, hsize]
      refine ⟨fun hcovers => List.getElem?_append_right hcovers.1, fun hnot => ?_⟩
      by_cases hlt : index < buffer.bytes.toList.length
      · exact List.getElem?_append_left hlt
      · -- behind the emitted bytes there is nothing, before and after
        have hbehind : (buffer.bytes.toList ++ edit.bytes).length ≤ index := by
          rw [List.length_append]
          omega
        rw [List.getElem?_eq_none hbehind, List.getElem?_eq_none (by omega)]
  · rw [after_of_not_fits hfits]
    exact ⟨fun hcovers => absurd hcovers.1 hfits, fun _ => rfl⟩

/-- A byte that was not there before has just been emitted. -/
theorem covers_of_lt_growth {size : Nat} (hle : size ≤ index) (hlt : index < size + edit.growth) :
    edit.Covers size index := by
  rw [growth] at hlt
  cases hoffset : edit.offset? with
  | some offset =>
    rw [hoffset] at hlt
    exact absurd hlt (Nat.not_lt.mpr hle)
  | none =>
    rw [hoffset] at hlt
    refine ⟨fits_of_offset_eq_none hoffset size, ?_⟩
    rw [start, hoffset]
    exact ⟨hle, hlt⟩

/-! ### Edits one after another -/

/-- A last edit is carried out on what the others have left. -/
theorem afterAll_concat (edits : List Edit) (edit : Edit) :
    afterAll (edits ++ [edit]) = after (afterAll edits) edit := by
  simp [afterAll]

/-- Some edits and a last one add what they add each. -/
theorem emitted_concat (edits : List Edit) (edit : Edit) :
    emitted (edits ++ [edit]) = emitted edits + edit.growth := by
  simp [emitted]

/-- The size of a buffer is the number of bytes that were emitted. -/
theorem size_afterAll (edits : List Edit) : (afterAll edits).size = emitted edits := by
  induction edits using List.reverseRecOn with
  | nil => rfl
  | append_singleton edits edit ih => rw [afterAll_concat, size_after, ih, emitted_concat]

/-- Each of the edits before the last writes where it wrote without the last. -/
theorem writesAt_concat_of_lt (edit : Edit) (hlt : number < edits.length) :
    WritesAt (edits ++ [edit]) index number ↔ WritesAt edits index number := by
  rw [WritesAt, WritesAt, List.getElem?_append_left hlt, List.take_append_of_le_length hlt.le]

/-- The last edit writes on what the others have left. -/
theorem writesAt_concat_length (edits : List Edit) (edit : Edit) (index : Nat) :
    WritesAt (edits ++ [edit]) index edits.length ↔ edit.Covers (emitted edits) index := by
  simp [WritesAt]

/-- Only the given edits write. -/
theorem WritesAt.lt_length (h : WritesAt edits index number) : number < edits.length := by
  obtain ⟨edit, hedit, -⟩ := h
  exact (List.getElem?_eq_some_iff.mp hedit).1

/-- Each byte of the buffer is the one that was written there last. -/
theorem last_write_wins (hlt : index < (afterAll edits).size) :
    ∃ number edit, IsGreatest {number | WritesAt edits index number} number ∧
      edits[number]? = some edit ∧ (afterAll edits).bytes[index]? =
        edit.bytes[index - edit.start (emitted (edits.take number))]? := by
  induction edits using List.reverseRecOn with
  | nil => exact absurd hlt (Nat.not_lt_zero _)
  | append_singleton edits edit ih =>
    obtain ⟨hcovered, hkept⟩ := getElem?_after (afterAll edits) edit index
    rw [size_afterAll] at hcovered hkept
    rw [afterAll_concat] at hlt ⊢
    by_cases hcovers : edit.Covers (emitted edits) index
    · -- the last edit writes the byte
      refine ⟨edits.length, edit, ⟨(writesAt_concat_length _ _ _).mpr hcovers, ?_⟩, by simp, ?_⟩
      · intro number hwrites
        have := WritesAt.lt_length hwrites
        rw [List.length_append, List.length_singleton] at this
        omega
      · rw [hcovered hcovers, List.take_left]
    · -- it does not, so the byte was there before and the last of the others has written it
      have hbefore : index < (afterAll edits).size := by
        by_contra hnot
        rw [size_after, size_afterAll] at hlt
        rw [size_afterAll] at hnot
        exact hcovers (covers_of_lt_growth (Nat.le_of_not_lt hnot) hlt)
      obtain ⟨number, earlier, ⟨hwrites, hlast⟩, hearlier, hbyte⟩ := ih hbefore
      have hnumber := hwrites.lt_length
      refine ⟨number, earlier, ⟨(writesAt_concat_of_lt edit hnumber).mpr hwrites, ?_⟩, ?_, ?_⟩
      · intro other hother
        have hle := WritesAt.lt_length hother
        rw [List.length_append, List.length_singleton] at hle
        rcases Nat.lt_or_ge other edits.length with hlt' | hge
        · exact hlast ((writesAt_concat_of_lt edit hlt').mp hother)
        · obtain rfl : other = edits.length := by omega
          exact absurd ((writesAt_concat_length _ _ _).mp hother) hcovers
      · rw [List.getElem?_append_left hnumber, hearlier]
      · rw [hkept hcovers, hbyte, List.take_append_of_le_length hnumber.le]

/-- A jump over itself: its field is filled in, its first byte is changed, and a word that would
reach past the end is refused. -/
example : afterAll [.emit [0xE9], .emitWord 0, .patchWord 1 0xFFFFFFFB, .patchByte 0 0xEB,
    .patchWord 2 0] = ⟨#[0xEB, 0xFB, 0xFF, 0xFF, 0xFF]⟩ := by
  decide

end Edit

/-! ### Filling in branches -/

namespace X86

/-- The first four bytes of a row as a signed number, lowest byte first. -/
def signedOperand (bytes : List UInt8) : Int :=
  (operand bytes).toBitVec.toInt

/-- A number that 32 bits can hold is read back from its bytes. -/
theorem signedOperand_littleEndian {number : Int} (hlow : -0x80000000 ≤ number)
    (hhigh : number < 0x80000000) (rest : List UInt8) :
    signedOperand (littleEndian (UInt32.ofInt number) ++ rest) = number := by
  rw [signedOperand, operand_littleEndian, toBitVec_ofInt,
    BitVec.toInt_ofInt_eq_self (by decide) (by omega) (by omega)]

end X86

/-- There is a displacement between two offsets if and only if 32 bits can hold it. -/
theorem exists_branchDisplacement_iff (source target : Nat) :
    (∃ word, branchDisplacement source target = .ok word) ↔
      -2 ^ 31 ≤ signedWord target - signedWord source ∧
        signedWord target - signedWord source < 2 ^ 31 := by
  simp only [branchDisplacement]
  split
  · next hnear => exact iff_of_true ⟨_, rfl⟩ hnear
  · next hfar => exact iff_of_false (by rintro ⟨word, ⟨⟩⟩) hfar

/-- The bytes of a displacement, read as a signed number, lead from its source to its target. -/
theorem add_signedOperand {source : Nat} {target : UInt64} {word : UInt32}
    (h : branchDisplacement source target.toNat = .ok word) (rest : List UInt8) :
    (source + X86.signedOperand (X86.littleEndian word ++ rest)) % 2 ^ 64 = target.toNat := by
  have htarget := target.toNat_lt
  simp only [branchDisplacement] at h
  split at h
  · next hnear =>
    cases h
    rw [X86.signedOperand_littleEndian hnear.1 hnear.2]
    -- a signed word is the number itself modulo `2 ^ 64`
    simp only [signedWord_eq_bmod, Int.bmod_def]
    omega
  · cases h

/-- The four bytes that an emitted word adds. -/
theorem CodeBuffer.drop_emitWord (buffer : CodeBuffer) (word : UInt32) :
    (buffer.emitWord word).bytes.toList.drop buffer.size = X86.littleEndian word := by
  rw [emitWord, toList_bytes_emit, size, ← Array.length_toList, List.drop_left]

/-- The four bytes that a patch with a word leaves at its offset. -/
theorem CodeBuffer.drop_patchWord {buffer patched : CodeBuffer} {offset : Nat} {word : UInt32}
    (h : buffer.patchWord offset word = .ok patched) :
    patched.bytes.toList.drop offset =
      X86.littleEndian word ++ buffer.bytes.toList.drop (offset + 4) := by
  rw [patchWord] at h
  split at h
  · next hfits =>
    cases h
    have hsize : buffer.size = buffer.bytes.toList.length := Array.length_toList.symm
    rw [toList_overwrite hfits, List.append_assoc, List.drop_left' (by
      rw [List.length_take]
      omega)]
    rfl
  · cases h

/-- A code buffer carries out every edit that overwrites only bytes that are there, and no other.
What is refused changes nothing, and overwriting keeps the number of bytes. Whatever the edits, each
byte is in the end the one that was written there last. There is a displacement between two offsets
if and only if 32 bits can hold it, and its four bytes, emitted or filled in, lead from the one
offset to the other. -/
theorem patches_exact :
    (∀ (edit : Edit) (buffer : CodeBuffer),
      ((∃ next, edit.apply buffer = .ok next) ↔ edit.Fits buffer.size) ∧
      (¬ edit.Fits buffer.size → edit.after buffer = buffer) ∧
      (edit.after buffer).size = buffer.size + edit.growth) ∧
    (∀ edits : List Edit, (Edit.afterAll edits).size = Edit.emitted edits ∧
      ∀ index < Edit.emitted edits, ∃ number edit,
        IsGreatest {number | Edit.WritesAt edits index number} number ∧
        edits[number]? = some edit ∧ (Edit.afterAll edits).bytes[index]? =
          edit.bytes[index - edit.start (Edit.emitted (edits.take number))]?) ∧
    ∀ source target : UInt64,
      ((∃ word, branchDisplacement source.toNat target.toNat = .ok word) ↔
        -2 ^ 31 ≤ signedWord target.toNat - signedWord source.toNat ∧
          signedWord target.toNat - signedWord source.toNat < 2 ^ 31) ∧
      ∀ word, branchDisplacement source.toNat target.toNat = .ok word → ∀ buffer : CodeBuffer,
        (source.toNat + X86.signedOperand
          ((buffer.emitWord word).bytes.toList.drop buffer.size)) % 2 ^ 64 = target.toNat ∧
        ∀ offset patched, buffer.patchWord offset word = .ok patched →
          (source.toNat + X86.signedOperand (patched.bytes.toList.drop offset)) % 2 ^ 64 =
            target.toNat := by
  refine ⟨fun edit buffer => ?_, fun edits => ?_, fun source target => ?_⟩
  · exact ⟨edit.exists_apply_iff buffer, Edit.after_of_not_fits, Edit.size_after buffer edit⟩
  · refine ⟨Edit.size_afterAll edits, fun index hlt => ?_⟩
    rw [← Edit.size_afterAll] at hlt
    exact Edit.last_write_wins hlt
  · refine ⟨exists_branchDisplacement_iff _ _, fun word hword buffer => ⟨?_, ?_⟩⟩
    · rw [CodeBuffer.drop_emitWord]
      simpa using add_signedOperand hword []
    · intro offset patched hpatched
      rw [CodeBuffer.drop_patchWord hpatched]
      exact add_signedOperand hword _

end TapeLang

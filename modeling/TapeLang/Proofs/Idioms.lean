import Mathlib.Data.Int.GCD
import Mathlib.Data.Nat.Prime.Basic
import Mathlib.Tactic.Ring
import TapeLang.Op.Specialize
import TapeLang.Proofs.Execution
import TapeLang.Proofs.Tape

/-!
# What stands for a loop

Each loop that is replaced repeats a straight body. `Replaces op body` says what it takes for an op
to stand for such a loop: it does nothing where the loop is not entered, it does the same before
and after a round, it fails where a round fails, and where it comes to an end the loop does, too.
The last needs a condition for the loops that add or subtract a constant. They reach zero only from
multiples of the greatest common divisor of the constant and 256.

* `replaces_of_specialize`: every op that is found for a body stands for the loop.
* `clears_of_strict`: under strict zeroing the condition always holds.
-/

namespace TapeLang

/-- A count below `2 ^ 63` is its own signed word. -/
theorem signedWord_natCast {count : Nat} (h : count < 2 ^ 63) : signedWord count = count := by
  rw [signedWord, if_pos (by simpa using h)]

/-- A positive count below `2 ^ 63` moves the pointer. -/
theorem signedWord_ne_zero {count : Nat} (hpos : 0 < count) (h : count < 2 ^ 63) :
    signedWord count ≠ 0 := by
  rw [signedWord_natCast h]
  omega

/-- The opposite of a count below `2 ^ 63` is its own signed word. -/
theorem signedWord_neg_signedWord {count : Nat} (h : count < 2 ^ 63) :
    signedWord (-signedWord count) = -signedWord count := by
  rw [signedWord_natCast h, signedWord, if_pos (by simpa using h)]

namespace Op

/-- An op that stands for a run of instructions. A run is not empty, and it is no longer than a
word can count. -/
structure Elementary (op : Op) : Prop where
  /-- It is no jump. -/
  side_eq : op.side = none
  /-- It stands for no loop. -/
  not_specialized : op.isSpecialized = false
  /-- If it moves the pointer, it moves it by a positive number of cells. -/
  count_bounds : ∀ count, op = .forward count ∨ op = .backward count → 0 < count ∧ count < 2 ^ 63

/-- A loop with this body, if it adds or subtracts a constant, reaches zero from the current
cell. -/
def Clears (body : List Op) (machine : Machine) : Prop :=
  ∀ count, body = [.add count] ∨ body = [.sub count] →
    Nat.gcd count 256 ∣ machine.tape.current.toNat

/-- How a loop and the op that stands for it are stopped by the same error: in the same state,
except that a loop that moves a value has begun with its round. -/
def StopsAlike : Op → Error → Machine → Machine → Prop
  | transferAndZero _, error, plain, special =>
    (∃ index, error = .outOfRange index) ∧ special.tape.current ≠ 0 ∧
      plain = special.mapTape (·.subCurrent 1)
  | _, _, plain, special => plain = special

end Op

/-- A loop whose rounds do what `round` says comes to an end or fails. -/
inductive Settles (round : Machine → Outcome Machine) : Machine → Prop
  | leave {machine : Machine} (hzero : machine.tape.current = 0) : Settles round machine
  | again {machine next : Machine} (hne : machine.tape.current ≠ 0)
      (hround : round machine = .done next) (hnext : Settles round next) : Settles round machine
  | fails {machine stopped : Machine} {error : Error} (hne : machine.tape.current ≠ 0)
      (hround : round machine = .failed error stopped) : Settles round machine

/-- An op stands for a loop with a straight body. -/
structure Replaces (op : Op) (body : List Op) : Prop where
  /-- It does nothing if the loop is not entered. -/
  leave : ∀ {machine}, machine.tape.current = 0 → op.act machine = .done machine
  /-- It does the same before and after a round. -/
  again : ∀ {machine next}, machine.tape.current ≠ 0 →
    Block.actAll Op.act body machine = .done next →
    op.act machine = op.act next ∧ (Op.Clears body machine ↔ Op.Clears body next)
  /-- It fails if a round fails. -/
  fails : ∀ {machine stopped error}, machine.tape.current ≠ 0 →
    Block.actAll Op.act body machine = .failed error stopped →
    Op.Clears body machine ∧
      ∃ stopped', op.act machine = .failed error stopped' ∧ op.StopsAlike error stopped stopped'
  /-- The loop ends if the op does. -/
  settles : ∀ {machine}, (op.act machine).Terminates → Op.Clears body machine →
    Settles (Block.actAll Op.act body) machine

/-- A loop that is not entered reaches zero. -/
theorem Op.clears_of_current_eq {body : List Op} {machine : Machine}
    (h : machine.tape.current = 0) : Op.Clears body machine := by
  intro count _
  rw [h]
  exact Nat.dvd_zero _

section Clearing

/-- The multiples of a number reach, modulo another, every multiple of their greatest common
divisor. -/
theorem exists_add_mul_mod_eq_zero {value amount modulus : Nat} (hpos : 0 < modulus)
    (h : Nat.gcd amount modulus ∣ value) : ∃ rounds, (value + rounds * amount) % modulus = 0 := by
  obtain ⟨factor, rfl⟩ := h
  let a := Nat.gcdA amount modulus
  let b := Nat.gcdB amount modulus
  have hbezout : (Nat.gcd amount modulus : Int) = amount * a + modulus * b :=
    Nat.gcd_eq_gcd_ab amount modulus
  have hrounds : ((-(a * factor) % modulus).toNat : Int) = -(a * factor) % modulus :=
    Int.toNat_of_nonneg (Int.emod_nonneg _ (by omega))
  refine ⟨(-(a * factor) % modulus).toNat, Nat.mod_eq_zero_of_dvd ?_⟩
  rw [← Int.natCast_dvd_natCast, Nat.cast_add, Nat.cast_mul, Nat.cast_mul, hrounds, hbezout,
    Int.emod_def]
  exact ⟨b * factor - -(a * factor) / modulus * amount, by ring⟩

variable {amount : UInt8} {body : List Op} {machine : Machine}

/-- Adding the amount often enough ends a loop. -/
theorem settles_of_add_mul
    (hbody : ∀ machine,
      Block.actAll Op.act body machine = .done (machine.mapTape (·.addCurrent amount)))
    (rounds : Nat) (h : (machine.tape.current.toNat + rounds * amount.toNat) % 256 = 0) :
    Settles (Block.actAll Op.act body) machine := by
  induction rounds generalizing machine with
  | zero =>
    refine .leave (UInt8.toNat_inj.mp ?_)
    have := machine.tape.current.toNat_lt
    simpa [Nat.mod_eq_of_lt this] using h
  | succ rounds ih =>
    -- the loop may end before all the rounds are made
    by_cases hzero : machine.tape.current = 0
    · exact .leave hzero
    · refine .again hzero (hbody machine) (ih ?_)
      rw [Machine.mapTape_eq, Machine.tape_withTape, Tape.current_addCurrent, UInt8.toNat_add,
        Nat.mod_add_mod, Nat.add_assoc, Nat.add_comm amount.toNat, ← Nat.succ_mul]
      exact h

/-- Setting the cell to zero stands for a loop that adds a constant amount. -/
theorem replaces_setZero (amount : UInt8)
    (hbody : ∀ machine,
      Block.actAll Op.act body machine = .done (machine.mapTape (·.addCurrent amount)))
    (hclears : ∀ machine, Op.Clears body machine ↔
      Nat.gcd amount.toNat 256 ∣ machine.tape.current.toNat) : Replaces .setZero body where
  leave {machine} hzero := by
    rw [Op.act, Machine.mapTape_eq, Tape.setCurrent_of_current_eq hzero, Machine.withTape_tape]
  again {machine next} _ hround := by
    rw [hbody] at hround
    cases hround
    refine ⟨by simp [Op.act, Machine.mapTape_eq], ?_⟩
    -- a round adds a multiple of the divisor, so that divisibility is kept
    have hdvd : Nat.gcd amount.toNat 256 ∣ amount.toNat := Nat.gcd_dvd_left _ _
    rw [hclears, hclears, Machine.mapTape_eq, Machine.tape_withTape, Tape.current_addCurrent,
      UInt8.toNat_add, Nat.dvd_mod_iff (Nat.gcd_dvd_right _ _), Nat.dvd_add_left hdvd]
  fails {machine _ _} _ hround := by
    rw [hbody] at hround
    cases hround
  settles {machine} _ hclear := by
    obtain ⟨rounds, hrounds⟩ := exists_add_mul_mod_eq_zero (by decide) ((hclears machine).mp hclear)
    exact settles_of_add_mul hbody rounds hrounds

end Clearing

/-- A loop that moves the pointer ends if a scan does. -/
theorem settles_of_scan {step : Int} {body : List Op} (fuel : Nat) {machine : Machine}
    (hbody : ∀ machine, Block.actAll Op.act body machine = machine.moveBy step)
    (hend : (Tape.scan step fuel machine.tape).Terminates) :
    Settles (Block.actAll Op.act body) machine := by
  induction fuel generalizing machine with
  | zero => exact absurd rfl hend
  | succ fuel ih =>
    by_cases hzero : machine.tape.current = 0
    · exact .leave hzero
    · rw [Tape.scan, if_neg hzero] at hend
      cases hmove : machine.moveBy step with
      | done next =>
        obtain ⟨tape, htape, rfl⟩ := Machine.of_moveBy_eq_done hmove
        rw [htape] at hend
        exact .again hzero ((hbody _).trans hmove) (ih hend)
      | failed error stopped => exact .fails hzero ((hbody _).trans hmove)
      | unfinished => exact absurd hmove (Machine.moveBy_ne_unfinished _ _)

/-- Looking for a zero stands for a loop that moves the pointer. -/
theorem replaces_scanUntilZero {step : Int} {body : List Op}
    (hbody : ∀ machine, Block.actAll Op.act body machine = machine.moveBy step)
    (hclears : ∀ machine, Op.Clears body machine) : Replaces (.scanUntilZero step) body where
  leave {machine} hzero := by
    rw [Op.act, Machine.onTape_eq, Tape.scanUntilZero_eq, if_pos hzero]
    rfl
  again {machine next} hne hround := by
    rw [hbody] at hround
    obtain ⟨tape, hmove, rfl⟩ := Machine.of_moveBy_eq_done hround
    refine ⟨?_, iff_of_true (hclears _) (hclears _)⟩
    rw [Op.act, Op.act, Machine.onTape_eq, Machine.onTape_eq,
      Tape.scanUntilZero_of_moveBy hne hmove]
    rfl
  fails {machine stopped error} hne hround := by
    rw [hbody] at hround
    obtain ⟨rfl, hmove⟩ := Machine.of_moveBy_eq_failed hround
    refine ⟨hclears _, stopped, ?_, rfl⟩
    rw [Op.act, Machine.onTape_eq, Tape.scanUntilZero_eq, if_neg hne, hmove]
    rfl
  settles {machine} hend _ := by
    refine settles_of_scan tapeSize hbody fun hunfinished => hend ?_
    rw [Op.act, Machine.onTape_eq, Tape.scanUntilZero, hunfinished]
    rfl

section Moving

namespace Tape

variable {tape : Tape} {delta : Int} {target : Fin tapeSize}

/-- An offset other than zero leads to another cell. -/
theorem pointer_ne_of_offset (hne : delta ≠ 0) (h : tape.offset delta = .ok target) :
    tape.pointer ≠ target := by
  rintro rfl
  have := index?_eq_ok_iff.mp h
  omega

/-- Moving a value adds it to the target and sets the current cell to zero, also if it is zero
already. -/
theorem transferAndZero_of_ok (h : tape.offset delta = .ok target) :
    tape.transferAndZero delta =
      .done ((tape.modifyCell target (· + tape.current)).setCurrent 0) := by
  unfold transferAndZero
  by_cases hzero : tape.current = 0
  · have hsame : tape.modifyCell target (· + tape.current) = tape :=
      modifyCell_eq_self (by rw [hzero, UInt8.add_zero])
    simp only [hzero, if_true] at hsame ⊢
    rw [hsame, setCurrent_of_current_eq hzero]
  · simp only [hzero, if_false, h]

/-- One round of a loop that moves a value, if there is a cell to move it to. -/
def transferRound (tape : Tape) (target : Fin tapeSize) : Tape :=
  (tape.subCurrent 1).modifyCell target (· + 1)

/-- A round makes the current cell less by one. -/
theorem current_transferRound (hne : tape.pointer ≠ target) :
    (tape.transferRound target).current = tape.current - 1 := by
  rw [← current_subCurrent]
  exact cells_modifyCell_of_ne hne.symm _

/-- Moving a value does the same before and after a round. -/
theorem transferAndZero_transferRound (hne : delta ≠ 0) (h : tape.offset delta = .ok target) :
    tape.transferAndZero delta = (tape.transferRound target).transferAndZero delta := by
  have hpointer := pointer_ne_of_offset hne h
  have hround : (tape.transferRound target).offset delta = .ok target := h
  rw [transferAndZero_of_ok h, transferAndZero_of_ok hround, current_transferRound hpointer]
  -- both changes of the target and of the current cell are brought together
  have hvalue : ∀ value : UInt8, value + 1 + (tape.current - 1) = value + tape.current := by
    intro value
    rw [UInt8.add_assoc, UInt8.add_comm 1, UInt8.sub_add_cancel]
  have htarget : (tape.transferRound target).modifyCell target (· + (tape.current - 1)) =
      (tape.modifyCell target (· + tape.current)).subCurrent 1 := by
    rw [transferRound, modifyCell_modifyCell, subCurrent, modifyCell_comm hpointer, subCurrent]
    simp only [hvalue, pointer_modifyCell]
  rw [htarget, subCurrent_eq_addCurrent, setCurrent_addCurrent]

end Tape

variable {delta : Int} {body : List Op} {machine : Machine}

/-- The rounds of a loop that moves a value, if there is a cell to move it to. -/
theorem round_of_offset_ok {target : Fin tapeSize}
    (hbody : ∀ machine, Block.actAll Op.act body machine =
      ((machine.mapTape (·.subCurrent 1)).moveBy delta).bind fun machine =>
        (machine.mapTape (·.addCurrent 1)).moveBy (-delta))
    (h : machine.tape.offset delta = .ok target) :
    Block.actAll Op.act body machine =
      .done (machine.withTape (machine.tape.transferRound target)) := by
  have hout : (machine.tape.subCurrent 1).moveBy delta =
      .done { machine.tape.subCurrent 1 with pointer := target } := by
    have hoffset : (machine.tape.subCurrent 1).offset delta = .ok target := h
    rw [Tape.moveBy, hoffset]
  have hback : { machine.tape.transferRound target with pointer := target }.moveBy (-delta) =
      .done (machine.tape.transferRound target) := by
    rw [Tape.moveBy_eq_done_iff]
    refine ⟨rfl, ?_⟩
    have := Tape.index?_eq_ok_iff.mp h
    show (machine.tape.pointer : Int) = target + -delta
    omega
  rw [hbody, Machine.moveBy, Machine.onTape_eq, Machine.mapTape_eq, Machine.tape_withTape, hout]
  exact congrArg (Outcome.map machine.withTape) hback

/-- The rounds of a loop that moves a value fail if there is no cell to move it to. -/
theorem round_of_offset_error {error : Error}
    (hbody : ∀ machine, Block.actAll Op.act body machine =
      ((machine.mapTape (·.subCurrent 1)).moveBy delta).bind fun machine =>
        (machine.mapTape (·.addCurrent 1)).moveBy (-delta))
    (h : machine.tape.offset delta = .error error) :
    Block.actAll Op.act body machine = .failed error (machine.mapTape (·.subCurrent 1)) := by
  have hmove : (machine.mapTape (·.subCurrent 1)).moveBy delta =
      .failed error (machine.mapTape (·.subCurrent 1)) := by
    rw [Machine.moveBy, Machine.onTape_eq, Machine.mapTape_eq, Machine.tape_withTape, Tape.moveBy]
    have hoffset : (machine.tape.subCurrent 1).offset delta = .error error := h
    rw [hoffset]
    rfl
  rw [hbody, hmove]
  rfl

/-- A loop that moves a value ends when the current cell has been counted down. -/
theorem settles_of_transfer {value : Nat} (hne : delta ≠ 0)
    (hbody : ∀ machine, Block.actAll Op.act body machine =
      ((machine.mapTape (·.subCurrent 1)).moveBy delta).bind fun machine =>
        (machine.mapTape (·.addCurrent 1)).moveBy (-delta))
    (hvalue : machine.tape.current.toNat = value) : Settles (Block.actAll Op.act body) machine := by
  -- the value of the current cell counts the rounds
  induction value generalizing machine with
  | zero => exact .leave (UInt8.toNat_inj.mp hvalue)
  | succ value ih =>
    have hzero : machine.tape.current ≠ 0 := by
      intro hzero
      rw [hzero] at hvalue
      cases hvalue
    cases hoffset : machine.tape.offset delta with
    | ok target =>
      refine .again hzero (round_of_offset_ok hbody hoffset) (ih ?_)
      rw [Machine.tape_withTape, Tape.current_transferRound (Tape.pointer_ne_of_offset hne hoffset),
        UInt8.toNat_sub_of_le _ _ (by rw [UInt8.le_iff_toNat_le, hvalue]; simp), hvalue]
      rfl
    | error error => exact .fails hzero (round_of_offset_error hbody hoffset)

/-- Moving a value at once stands for a loop that moves it one by one. -/
theorem replaces_transferAndZero (hne : delta ≠ 0)
    (hbody : ∀ machine, Block.actAll Op.act body machine =
      ((machine.mapTape (·.subCurrent 1)).moveBy delta).bind fun machine =>
        (machine.mapTape (·.addCurrent 1)).moveBy (-delta))
    (hclears : ∀ machine, Op.Clears body machine) : Replaces (.transferAndZero delta) body where
  leave {machine} hzero := by
    rw [Op.act, Machine.onTape_eq, Tape.transferAndZero]
    simp [hzero]
  again {machine next} hzero hround := by
    refine ⟨?_, iff_of_true (hclears _) (hclears _)⟩
    cases hoffset : machine.tape.offset delta with
    | ok target =>
      rw [round_of_offset_ok hbody hoffset] at hround
      cases hround
      rw [Op.act, Op.act, Machine.onTape_eq, Machine.onTape_eq,
        Tape.transferAndZero_transferRound hne hoffset]
      rfl
    | error error =>
      rw [round_of_offset_error hbody hoffset] at hround
      cases hround
  fails {machine stopped error} hzero hround := by
    cases hoffset : machine.tape.offset delta with
    | ok target =>
      rw [round_of_offset_ok hbody hoffset] at hround
      cases hround
    | error error' =>
      rw [round_of_offset_error hbody hoffset] at hround
      cases hround
      refine ⟨hclears _, machine, ?_, ?_, hzero, rfl⟩
      · rw [Op.act, Machine.onTape_eq, Tape.transferAndZero]
        simp [hzero, hoffset]
      · exact ⟨_, (Tape.of_offset_eq_error hoffset).1⟩
  settles {machine} _ _ := settles_of_transfer hne hbody rfl

end Moving

/-- A number and its remainder have the same greatest common divisor with the modulus. -/
theorem gcd_mod_left (value modulus : Nat) :
    Nat.gcd (value % modulus) modulus = Nat.gcd value modulus := by
  rw [← Nat.gcd_rec, Nat.gcd_comm]

/-- A count and its byte have the same greatest common divisor with 256. -/
theorem gcd_toNat_ofNat (count : Nat) :
    Nat.gcd (UInt8.ofNat count).toNat 256 = Nat.gcd count 256 := by
  have htoNat : (UInt8.ofNat count).toNat = count % 256 := UInt8.toNat_ofNat'
  rw [htoNat, gcd_mod_left]

/-- A byte and its opposite have the same greatest common divisor with 256. -/
theorem gcd_toNat_neg (amount : UInt8) :
    Nat.gcd (-amount).toNat 256 = Nat.gcd amount.toNat 256 := by
  have hle : amount.toNat ≤ 256 := Nat.le_of_lt amount.toNat_lt
  have hneg : (-amount).toNat = (256 - amount.toNat) % 256 := UInt8.toNat_neg amount
  rw [hneg, gcd_mod_left, Nat.gcd_self_sub_left hle]

/-- Every op that is found for a body stands for the loop. -/
theorem replaces_of_specialize {strict : Bool} {body : List Op} {op : Op}
    (hall : ∀ item ∈ body, item.Elementary) (h : specialize strict body = some op) :
    Replaces op body := by
  -- one case for each shape of body that is replaced: adding, subtracting, moving to either side,
  -- and moving a value to either side
  unfold specialize at h
  split at h
  · next step =>
    split at h
    · cases h
    · cases h
      refine replaces_setZero (UInt8.ofNat step) (fun machine => rfl) fun machine => ?_
      rw [gcd_toNat_ofNat]
      simp [Op.Clears]
  · next step =>
    split at h
    · cases h
    · cases h
      refine replaces_setZero (-UInt8.ofNat step) (fun machine => ?_) fun machine => ?_
      · simp only [← Tape.subCurrent_eq_addCurrent]
        rfl
      · rw [gcd_toNat_neg, gcd_toNat_ofNat]
        simp [Op.Clears]
  · next step =>
    cases h
    refine replaces_scanUntilZero (fun machine => ?_) fun machine count hcount => ?_
    · simp [Block.actAll, Op.act]
    · simp at hcount
  · next step =>
    cases h
    have hbounds := (hall _ List.mem_cons_self).count_bounds step (Or.inr rfl)
    rw [signedWord_neg_signedWord hbounds.2]
    refine replaces_scanUntilZero (fun machine => ?_) fun machine count hcount => ?_
    · simp [Block.actAll, Op.act]
    · simp at hcount
  · next out back =>
    split at h
    · next heq =>
      cases h
      subst heq
      have hbounds := (hall (.forward out) (by simp)).count_bounds out (Or.inl rfl)
      refine replaces_transferAndZero (signedWord_ne_zero hbounds.1 hbounds.2) (fun machine => ?_)
        fun machine count hcount => ?_
      · simp only [Block.actAll, Op.act, Outcome.bind_done, Outcome.bind_done_right]
        rfl
      · simp at hcount
    · cases h
  · next out back =>
    split at h
    · next heq =>
      cases h
      subst heq
      have hbounds := (hall (.backward out) (by simp)).count_bounds out (Or.inr rfl)
      rw [signedWord_neg_signedWord hbounds.2]
      refine replaces_transferAndZero (Int.neg_ne_zero.mpr
        (signedWord_ne_zero hbounds.1 hbounds.2)) (fun machine => ?_) fun machine count hcount => ?_
      · simp only [Block.actAll, Op.act, Outcome.bind_done, Outcome.bind_done_right, Int.neg_neg]
        rfl
      · simp at hcount
    · cases h
  · cases h

/-- A loop that is replaced under strict zeroing reaches zero from every value. -/
theorem clears_of_strict {body : List Op} {op : Op} (h : specialize true body = some op)
    (machine : Machine) : Op.Clears body machine := by
  intro count hcount
  have hodd : count % 2 = 1 := by
    rcases hcount with rfl | rfl
    · by_contra hodd
      simp [specialize, show count % 2 = 0 by omega] at h
    · by_contra hodd
      simp [specialize, show count % 2 = 0 by omega] at h
  have hcoprime : Nat.Coprime count (2 ^ 8) :=
    Nat.Coprime.pow_right 8 (Nat.coprime_two_right.mpr (Nat.odd_iff.mpr hodd))
  rw [show Nat.gcd count 256 = 1 from hcoprime]
  exact Nat.one_dvd _

end TapeLang

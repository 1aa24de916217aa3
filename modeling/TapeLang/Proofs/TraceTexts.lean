import Mathlib.Data.List.Forall2
import TapeLang.Proofs.Profiles

/-!
# Reading traces

The text of a trace is written without separators: for each op its symbol and its argument, which
may begin with a minus sign, and the minus sign is a symbol as well. It can be read all the same. A
symbol is a single character that is no digit, and the argument behind it takes a sign, if there is
one, and then all digits that follow.

* `Profile.numeral_append`: a number that is written before something else is read back.
* `Profile.traceChars_inj`: texts are equal only if the ops agree in symbols and arguments.
* `Profile.current_eq_iff`: when two sequences of ops leave the same trace.
-/

namespace TapeLang

namespace Op

/-- The number that the op carries, if it is a count or a target, is a word. -/
def CarriesWord : Op → Prop
  | forward n | backward n | add n | sub n | write n | read n => n < 2 ^ 64
  | jumpIfZero target | jumpIfNotZero target => target < 2 ^ 64
  | setZero | scanUntilZero _ | transferAndZero _ => True

/-- Two ops have the same text in a trace: the same symbol and the same argument. -/
def SameText (op other : Op) : Prop :=
  op.kind.symbol = other.kind.symbol ∧ op.argument = other.argument

/-- Two ops are equal, or both stand for loops and have the same argument. -/
def Exchangeable (op other : Op) : Prop :=
  op = other ∨
    op.isSpecialized = true ∧ other.isSpecialized = true ∧ op.argument = other.argument

/-- The kinds that stand for loops are those with the question mark. -/
theorem isSpecialized_iff_symbol (op : Op) : op.isSpecialized = true ↔ op.kind.symbol = '?' := by
  cases op <;> simp [isSpecialized, kind, Kind.symbol]

/-- Every other symbol belongs to one kind. -/
theorem Kind.eq_of_symbol_eq {kind other : Kind} (hne : kind.symbol ≠ '?')
    (h : kind.symbol = other.symbol) : kind = other := by
  cases kind <;> cases other <;> first | rfl | exact absurd h (by decide) | exact absurd rfl hne

/-- A word is found from the signed word with the same bits. -/
theorem eq_of_signedWord_eq {n m : Nat} (hn : n < 2 ^ 64) (hm : m < 2 ^ 64)
    (h : signedWord n = signedWord m) : n = m := by
  rw [signedWord_eq_bmod, signedWord_eq_bmod, Int.bmod_def, Int.bmod_def] at h
  omega

/-- An op that carries a word is found from its kind and its argument. -/
theorem eq_of_kind_eq {op other : Op} (hword : op.CarriesWord) (hword' : other.CarriesWord)
    (hkind : op.kind = other.kind) (hargument : op.argument = other.argument) : op = other := by
  cases op <;> cases other <;> try cases hkind
  case setZero.setZero => rfl
  case scanUntilZero.scanUntilZero => exact congrArg _ hargument
  case transferAndZero.transferAndZero => exact congrArg _ hargument
  all_goals exact congrArg _ (eq_of_signedWord_eq hword hword' hargument)

/-- Ops that carry words have the same text if and only if they are exchangeable. -/
theorem sameText_iff_exchangeable {op other : Op} (hword : op.CarriesWord)
    (hword' : other.CarriesWord) : op.SameText other ↔ op.Exchangeable other := by
  constructor
  · rintro ⟨hsymbol, hargument⟩
    by_cases hloop : op.kind.symbol = '?'
    · exact .inr ⟨op.isSpecialized_iff_symbol.mpr hloop,
        other.isSpecialized_iff_symbol.mpr (hsymbol ▸ hloop), hargument⟩
    · exact .inl (eq_of_kind_eq hword hword' (Kind.eq_of_symbol_eq hloop hsymbol) hargument)
  · rintro (rfl | ⟨hloop, hloop', hargument⟩)
    · exact ⟨rfl, rfl⟩
    · rw [isSpecialized_iff_symbol] at hloop hloop'
      exact ⟨hloop.trans hloop'.symm, hargument⟩

end Op

namespace Profile

/-! ### Numbers in a text -/

/-- The number at the beginning of a text: a sign, if there is one, and the digits that follow. -/
def numeral : List Char → List Char
  | '-' :: rest => '-' :: rest.takeWhile Char.isDigit
  | text => text.takeWhile Char.isDigit

/-- A text does not begin with a digit. -/
def StartsApart (text : List Char) : Prop :=
  ∀ char ∈ text.head?, char.isDigit = false

/-- Digits that end before something else are read back. -/
theorem takeWhile_digits_append {digits text : List Char}
    (hdigits : ∀ char ∈ digits, char.isDigit = true) (htext : StartsApart text) :
    (digits ++ text).takeWhile Char.isDigit = digits := by
  rw [List.takeWhile_append_of_pos hdigits]
  cases text with
  | nil => simp
  | cons char text =>
    have hchar : char.isDigit = false := htext char (by simp)
    simp [hchar]

/-- A number is written with digits, and with a sign if it is negative. -/
theorem toList_toString_int (number : Int) :
    (toString number).toList =
      if number < 0 then '-' :: Nat.toDigits 10 number.natAbs
      else Nat.toDigits 10 number.natAbs := by
  rw [Int.toString_eq_repr, Int.repr_eq_if]
  by_cases hneg : number < 0
  · have hnatAbs : (-number).toNat = number.natAbs := by omega
    simp [hneg, Int.not_le.mpr hneg, hnatAbs]
  · have hnatAbs : number.toNat = number.natAbs := by omega
    simp [hneg, Int.not_lt.mp hneg, hnatAbs]

/-- A number that is written before something else is read back. -/
theorem numeral_append (number : Int) {text : List Char} (htext : StartsApart text) :
    numeral ((toString number).toList ++ text) = (toString number).toList := by
  have hdigits : ∀ char ∈ Nat.toDigits 10 number.natAbs, char.isDigit = true :=
    fun char hmem => Nat.isDigit_of_mem_toDigits (by decide) (by decide) hmem
  rw [toList_toString_int]
  split
  · exact congrArg _ (takeWhile_digits_append hdigits htext)
  · -- without a sign the text begins with a digit
    have hne : Nat.toDigits 10 number.natAbs ≠ [] := Nat.toDigits_ne_nil
    rw [numeral]
    · exact takeWhile_digits_append hdigits htext
    · intro rest hminus
      obtain ⟨first, later, hfirst⟩ := List.exists_cons_of_ne_nil hne
      rw [hfirst, List.cons_append, List.cons.injEq] at hminus
      have hdigit := hdigits first (by simp [hfirst])
      rw [hminus.1] at hdigit
      cases hdigit

/-- Two numbers that are written before something else are equal, and so is what follows them, if
the texts are. -/
theorem eq_of_toString_append {number other : Int} {text text' : List Char}
    (htext : StartsApart text) (htext' : StartsApart text')
    (h : (toString number).toList ++ text = (toString other).toList ++ text') :
    number = other ∧ text = text' := by
  have hnumeral := congrArg numeral h
  rw [numeral_append number htext, numeral_append other htext'] at hnumeral
  rw [hnumeral] at h
  refine ⟨?_, List.append_cancel_left h⟩
  rw [String.toList_inj, Int.toString_eq_repr, Int.toString_eq_repr] at hnumeral
  exact Int.repr_inj.mp hnumeral

/-! ### Ops in a text -/

/-- The characters that ops contribute to a trace. -/
def traceChars (ops : List Op) : List Char :=
  ops.flatMap fun op => (traceText op).toList

/-- An op contributes its symbol and its argument. -/
theorem traceChars_cons (op : Op) (ops : List Op) :
    traceChars (op :: ops) =
      op.kind.symbol :: ((toString op.argument).toList ++ traceChars ops) := by
  simp [traceChars, traceText]

/-- No symbol is a digit. -/
theorem startsApart_traceChars (ops : List Op) : StartsApart (traceChars ops) := by
  cases ops with
  | nil => simp [StartsApart, traceChars]
  | cons op ops =>
    rw [traceChars_cons]
    rintro char hchar
    cases hchar
    cases op <;> rfl

/-- Two sequences of ops have the same characters if and only if they agree, op by op, in their
symbols and arguments. -/
theorem traceChars_inj {ops others : List Op} :
    traceChars ops = traceChars others ↔ List.Forall₂ Op.SameText ops others := by
  constructor
  · intro h
    induction ops generalizing others with
    | nil =>
      cases others with
      | nil => exact .nil
      | cons other others =>
        rw [traceChars_cons] at h
        cases h
    | cons op ops ih =>
      cases others with
      | nil =>
        rw [traceChars_cons] at h
        cases h
      | cons other others =>
        rw [traceChars_cons, traceChars_cons, List.cons.injEq] at h
        -- the text of the later ops begins with no digit, so that the argument ends where it has to
        obtain ⟨hargument, hlater⟩ := eq_of_toString_append (startsApart_traceChars ops)
          (startsApart_traceChars others) h.2
        exact .cons ⟨h.1, hargument⟩ (ih hlater)
  · intro h
    induction h with
    | nil => rfl
    | cons hop _ ih => rw [traceChars_cons, traceChars_cons, hop.1, hop.2, ih]

/-- What ops add to the current trace, if none of them is a jump. -/
theorem toList_current_foldl {ops : List Op} (hops : ∀ op ∈ ops, op.isJump = false)
    (profile : Profile) :
    (ops.foldl record profile).current.toList = profile.current.toList ++ traceChars ops := by
  induction ops generalizing profile with
  | nil => simp [traceChars]
  | cons op ops ih =>
    obtain ⟨hop, hlater⟩ := List.forall_mem_cons.mp hops
    rw [List.foldl_cons, ih hlater, current_record_of_not_isJump profile hop]
    simp [traceChars]

/-- Two sequences of ops without jumps, recorded from the same state, leave the same trace if and
only if they agree, op by op, in their symbols and arguments. If their counts are words, they then
differ at most in ops that stand for loops and have the same argument. -/
theorem current_eq_iff {ops others : List Op} (hops : ∀ op ∈ ops, op.isJump = false)
    (hothers : ∀ op ∈ others, op.isJump = false) (profile : Profile) :
    ((ops.foldl record profile).current = (others.foldl record profile).current ↔
      List.Forall₂ Op.SameText ops others) ∧
    ((∀ op ∈ ops, op.CarriesWord) → (∀ op ∈ others, op.CarriesWord) →
      ((ops.foldl record profile).current = (others.foldl record profile).current ↔
        List.Forall₂ Op.Exchangeable ops others)) := by
  have htexts : (ops.foldl record profile).current = (others.foldl record profile).current ↔
      List.Forall₂ Op.SameText ops others := by
    rw [← String.toList_inj, toList_current_foldl hops, toList_current_foldl hothers,
      List.append_cancel_left_eq, traceChars_inj]
  refine ⟨htexts, fun hwords hwords' => htexts.trans ?_⟩
  rw [List.forall₂_iff_zip, List.forall₂_iff_zip]
  refine and_congr_right fun _ => forall₂_congr fun op other => forall_congr' fun hmem => ?_
  obtain ⟨hmem, hmem'⟩ := List.of_mem_zip hmem
  exact Op.sameText_iff_exchangeable (hwords op hmem) (hwords' other hmem')

/-- Setting a cell to zero and a scan that stays in place have the same text, in front of a count
that is written with a minus sign. Without its minus sign that count is another one. -/
theorem current_eq_iff_minus :
    ([.setZero, .sub 0xFFFFFFFFFFFFFFFF].foldl record empty).current =
      ([.scanUntilZero 0, .sub 0xFFFFFFFFFFFFFFFF].foldl record empty).current ∧
    ([.sub 0xFFFFFFFFFFFFFFFF].foldl record empty).current ≠
      ([.sub 1].foldl record empty).current := by
  constructor
  · refine ((current_eq_iff (by decide) (by decide) empty).2 (by simp [Op.CarriesWord])
      (by simp [Op.CarriesWord])).mpr ?_
    exact .cons (.inr ⟨rfl, rfl, rfl⟩) (.cons (.inl rfl) .nil)
  · rw [Ne, (current_eq_iff (by decide) (by decide) empty).1]
    simp [Op.SameText, Op.argument, signedWord]

end Profile

end TapeLang

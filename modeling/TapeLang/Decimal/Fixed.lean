/-!
# Numbers with a fixed number of decimal places

A quotient is rounded to the nearest integer, and to the even one of two that are equally near.
The value of a floating-point number is `m * 2 ^ e` for integers that its bits give, so it is
rounded to a decimal place by rounding an exact quotient.
-/

namespace TapeLang

namespace Decimal

/-- The integer nearest to `num / den`; a half goes to the even neighbour. -/
def roundDiv (num den : Nat) : Nat :=
  let quotient := num / den
  let rest := 2 * (num % den)
  if den < rest ∨ (rest = den ∧ quotient % 2 = 1) then quotient + 1 else quotient

/-- The digits of a number, with zeros in front to fill up `width` places. -/
def zeroPadded (width value : Nat) : String :=
  let digits := toString value
  "".pushn '0' (width - digits.length) ++ digits

/-- A number of units of `10 ^ -places`, written with a decimal point. -/
def pointed (places units : Nat) : String :=
  s!"{units / Nat.pow 10 places}." ++ zeroPadded places (units % Nat.pow 10 places)

/-- The value of a finite floating-point number that is not negative, as the pair `(m, e)` with
value `m * 2 ^ (e - 1075)`. -/
def ofBits (bits : UInt64) : Nat × Nat :=
  let fraction := bits.toNat % 0x10000000000000
  let exponent := bits.toNat / 0x10000000000000 % 0x800
  if exponent = 0 then (fraction, 1) else (0x10000000000000 + fraction, exponent)

/-- The value of a finite floating-point number that is not negative, with a fixed number of
decimal places. -/
def fixed (places : Nat) (value : Float) : String :=
  let (m, e) := ofBits value.toBits
  pointed places (roundDiv (m * Nat.pow 2 e * Nat.pow 10 places) (Nat.pow 2 1075))

/-- Rounding is off by half a unit at most. -/
theorem roundDiv_bounds (num den : Nat) (h : 0 < den) :
    2 * num ≤ (2 * roundDiv num den + 1) * den ∧
      2 * roundDiv num den * den ≤ 2 * num + den := by
  have hdiv := Nat.div_add_mod num den
  have hmod := Nat.mod_lt num h
  unfold roundDiv
  generalize num / den = q at *
  generalize num % den = r at *
  subst hdiv
  dsimp only
  split
  · next hup =>
    constructor
    · have : (2 * (q + 1) + 1) * den = 2 * (den * q) + 3 * den := by grind
      omega
    · have : 2 * (q + 1) * den = 2 * (den * q) + 2 * den := by grind
      omega
  · next hdown =>
    constructor
    · have : (2 * q + 1) * den = 2 * (den * q) + den := by grind
      omega
    · have : 2 * q * den = 2 * (den * q) := by grind
      omega

end Decimal

end TapeLang

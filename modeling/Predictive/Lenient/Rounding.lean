import Predictive.Datum

/-!
# The integers that decimals stand for

A number that is written with a point or an exponent stands for the nearest binary number with 53
significant digits, and for none if it is too large. A half goes to the even neighbour.
-/

namespace Predictive

/-- A binary number: `mantissa * 2 ^ exponent`. -/
structure BinaryNumber where
  mantissa : Int
  exponent : Int
  deriving DecidableEq

namespace BinaryNumber

/-- Nought. -/
def zero : BinaryNumber := ⟨0, 0⟩

/-- The integer that a binary number is, if it is one. -/
def whole? (b : BinaryNumber) : Option Int :=
  if 0 ≤ b.exponent then some (b.mantissa * Int.pow 2 b.exponent.toNat)
  else
    let unit : Int := Int.pow 2 (-b.exponent).toNat
    if b.mantissa % unit = 0 then some (b.mantissa / unit) else none

end BinaryNumber

namespace Decimal

/-- A quotient rounded to the nearest whole number, a half to the even one. -/
def roundDiv (num den : Nat) : Nat :=
  let q := num / den
  let r := num % den
  if 2 * r < den then q
  else if den < 2 * r then q + 1
  else if q % 2 = 0 then q else q + 1

/-- The exponent of the least positive binary number. -/
def leastExponent : Int := -1074

/-- `num / den` in units of `2 ^ k`, as a numerator and a denominator. -/
def inUnits (num den : Nat) (k : Int) : Nat × Nat :=
  (num * Nat.pow 2 (-k).toNat, den * Nat.pow 2 k.toNat)

/-- The exponent of the unit in which `num / den` has 53 digits before the point, or the least
one. -/
def unitExponent (num den : Nat) : Int :=
  let k := (num.log2 : Int) - (den.log2 : Int) - 52
  let (n, d) := inUnits num den k
  max leastExponent (if n < d * Nat.pow 2 52 then k - 1 else k)

/-- The binary number nearest to `num / den`. -/
def nearestQuotient? (num den : Nat) : Option (Nat × Int) :=
  let k := unitExponent num den
  let (n, d) := inUnits num den k
  let m := roundDiv n d
  if Nat.pow 2 1024 ≤ m * Nat.pow 2 k.toNat then none else some (m, k)

/-- The binary number that a decimal stands for. Outside the powers from -400 to 400 nothing needs
to be computed: no such number is finite or differs from nought. -/
def nearest? (d : Decimal) : Option BinaryNumber :=
  let m := d.mantissa.natAbs
  if m = 0 || d.exponent + (m.log2 + 1 : Nat) < -400 then some .zero
  else if 400 < d.exponent then none
  else
    (nearestQuotient? (m * Nat.pow 10 d.exponent.toNat) (Nat.pow 10 (-d.exponent).toNat)).map
      fun (n, k) => ⟨d.mantissa.sign * n, k⟩

end Decimal

end Predictive

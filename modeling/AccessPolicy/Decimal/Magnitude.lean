/-! Magnitudes of binary64 numbers, counted in units of 2^-1074, the smallest positive one. A
quotient is rounded to the nearest magnitude of at most 53 significant bits, a tie to the even one;
what rounds to 2^1024 or more is no magnitude. -/

namespace AccessPolicy.Decimal

structure Magnitude where
  units : Nat
  deriving DecidableEq

/-- A power of two. -/
def pow2 (k : Nat) : Nat := Nat.pow 2 k

/-- A power of ten. -/
def pow10 (k : Nat) : Nat := Nat.pow 10 k

/-- The number one in units. -/
def one : Nat := pow2 1074

/-- The natural number nearest to a quotient, of two the even one. -/
def roundQuotient (num den : Nat) : Nat :=
  if 2 * (num % den) < den ∨ (2 * (num % den) = den ∧ num / den % 2 = 0) then num / den
  else num / den + 1

/-- The binary logarithm of the gap to the next magnitude; it is zero below 2^53 units. -/
def gapLog (units : Nat) : Nat := units.log2 - 52

/-- The magnitude nearest to a quotient in units. -/
def roundUnits? (num den : Nat) : Option Magnitude :=
  let gap := pow2 (gapLog (num / den))
  let units := roundQuotient num (den * gap) * gap
  if units < pow2 2098 then some ⟨units⟩ else none

namespace Magnitude

def ofNat? (n : Nat) : Option Magnitude := roundUnits? (n * one) 1

def mul? (x y : Magnitude) : Option Magnitude := roundUnits? (x.units * y.units) one

def div? (x y : Magnitude) : Option Magnitude := roundUnits? (x.units * one) y.units

/-- The magnitude nearest to `n * 10 ^ e`. Beyond 310 digits before the point nothing is one and
beyond 330 zeros behind it everything is zero, so no larger power is formed. -/
def ofDecimal? (n : Nat) (e : Int) : Option Magnitude :=
  let digits : Int := (toString n).length
  if n = 0 ∨ digits + e < -330 then some ⟨0⟩
  else if 310 < digits + e then none
  else roundUnits? (n * pow10 e.toNat * one) (pow10 (-e).toNat)

/-- The integer nearest to a magnitude, of two the greater one. -/
def round (x : Magnitude) : Nat := (2 * x.units + one) / (2 * one)

end Magnitude

end AccessPolicy.Decimal

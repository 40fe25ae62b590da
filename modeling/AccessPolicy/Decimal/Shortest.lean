import AccessPolicy.Decimal.Magnitude

/-! The shortest decimal that reads back as a magnitude, and of those the nearest. A decimal reads
back if it lies between the middles to the two neighbours of the magnitude; a middle itself
belongs to the even neighbour. For each number of digits the two decimals around the magnitude
are tried, since no other decimal of that length is nearer. -/

namespace AccessPolicy.Decimal

/-- The decimal `digits * 10 ^ exponent`. -/
structure Scientific where
  digits : Nat
  exponent : Int
  deriving DecidableEq

namespace Magnitude

def isEven (x : Magnitude) : Bool := x.units / pow2 (gapLog x.units) % 2 == 0

/-- The distance to the middle below in quarters of a unit; the gap below a power of two is half
the gap above it. -/
def below (x : Magnitude) : Nat :=
  let k := gapLog x.units
  if 0 < k ∧ x.units = pow2 (52 + k) then pow2 k else 2 * pow2 k

/-- The distance to the middle above in quarters of a unit. -/
def above (x : Magnitude) : Nat := 2 * pow2 (gapLog x.units)

/-- A decimal in quarters of a unit, times the power of ten that makes it whole. -/
def quarters (d : Scientific) : Nat := 4 * d.digits * pow10 d.exponent.toNat * one

/-- What a number of quarters of a unit is times the same power of ten. -/
def scale (d : Scientific) (n : Nat) : Nat := n * pow10 (-d.exponent).toNat

def readsBack (x : Magnitude) (d : Scientific) : Bool :=
  let low := scale d (4 * x.units - x.below)
  let high := scale d (4 * x.units + x.above)
  let v := quarters d
  if x.isEven then decide (low ≤ v) && decide (v ≤ high) else decide (low < v) && decide (v < high)

/-- The distance of a decimal from the magnitude, on the scale of the decimal. -/
def distance (x : Magnitude) (d : Scientific) : Nat :=
  let v := quarters d
  let w := scale d (4 * x.units)
  (v - w) + (w - v)

/-- The exponent of the first decimal digit of a magnitude above zero. -/
def leading (x : Magnitude) : Int :=
  if one ≤ x.units then ((toString (x.units / one)).length : Int) - 1
  else -((toString ((one - 1) / x.units)).length : Int)

/-- The nearer of the two decimals of an exponent around a magnitude, among those that read back;
of two equally near the even one. -/
def atExponent? (x : Magnitude) (e : Int) : Option Scientific :=
  let n := x.units * pow10 (-e).toNat / (one * pow10 e.toNat)
  let lower : Scientific := ⟨n, e⟩
  let upper : Scientific := ⟨n + 1, e⟩
  match readsBack x lower, readsBack x upper with
  | false, false => none
  | true, false => some lower
  | false, true => some upper
  | true, true =>
    let a := distance x lower
    let b := distance x upper
    if a < b ∨ (a = b ∧ n % 2 = 0) then some lower else some upper

/-- The first decimal found with `n` digits or more. -/
def shortestFrom (x : Magnitude) (n : Nat) : Nat → Scientific
  | 0 => ⟨x.units, 0⟩
  | fuel + 1 =>
    match x.atExponent? (x.leading + 1 - n) with
    | some d => d
    | none => shortestFrom x (n + 1) fuel

/-- The shortest decimal of a magnitude above zero; seventeen digits are always enough. -/
def shortest (x : Magnitude) : Scientific := shortestFrom x 1 17

end Magnitude

end AccessPolicy.Decimal

import AccessPolicy.Json.Basic

/-! The value of a JSON number. Digits enter the significand while it stays below 2^64. The integer
digits behind the first that does not fit count as zeros, and the fraction digits behind the
first that does not fit are left out. A number with a point, an exponent or too many digits, and
minus zero, is a binary64 number: its significand, rounded, times or divided by a rounded power
of ten. -/

namespace AccessPolicy

/-- The parts of a written number, digits as their values. -/
structure NumberLiteral where
  negative : Bool
  integer : List Nat
  fraction : Option (List Nat)
  /-- The sign, negative or not, and the digits of the exponent. -/
  exponent : Option (Bool × List Nat)
  deriving DecidableEq

namespace NumberLiteral

open Decimal

/-- The significand with the leading digits that fit, and how many they are. -/
def absorb (s : Nat) : List Nat → Nat × Nat
  | [] => (s, 0)
  | d :: ds =>
    if 10 * s + d < 0x10000000000000000 then
      let (t, n) := absorb (10 * s + d) ds
      (t, n + 1)
    else (s, 0)

/-- The power of ten, rounded; there is one up to 308. -/
def powerOfTen (k : Nat) : Magnitude := (Magnitude.ofNat? (pow10 k)).getD ⟨0⟩

/-- Divides by a power of ten, in steps of 308 while the exponent is greater. -/
def divideByPower (x : Magnitude) (k : Nat) : Option Magnitude :=
  if k ≤ 308 then x.div? (powerOfTen k)
  else if x.units = 0 then some x
  else do
    let y ← x.div? (powerOfTen 308)
    divideByPower y (k - 308)
termination_by k

/-- The magnitude of a significand times a power of ten, if it is finite. -/
def magnitude? (significand : Nat) (exponent : Int) : Option Magnitude := do
  let x ← Magnitude.ofNat? significand
  if exponent < 0 then divideByPower x (-exponent).toNat
  else if exponent ≤ 308 then x.mul? (powerOfTen exponent.toNat)
  else if x.units = 0 then some x
  else none

def decimal (digits : List Nat) : Nat := digits.foldl (fun n d => 10 * n + d) 0

/-- The number that a literal denotes; none if it is too large. An exponent of 2^31 or more is
not evaluated: it gives zero if it is negative or stands behind a zero. -/
def number? (l : NumberLiteral) : Option Number :=
  let (s, taken) := absorb 0 l.integer
  let dropped := l.integer.length - taken
  match l.fraction, l.exponent with
  | none, none =>
    if dropped = 0 ∧ l.negative = false then some (.integer s)
    else if dropped = 0 ∧ 0 < s ∧ s ≤ 0x8000000000000000 then some (.integer (-s))
    else (magnitude? s dropped).map (.float l.negative)
  | fraction, exponent =>
    let (s, behind) := absorb s (fraction.getD [])
    let shift : Int := dropped - behind
    match exponent with
    | none => (magnitude? s shift).map (.float l.negative)
    | some (down, digits) =>
      let e := decimal digits
      if e < 0x80000000 then
        (magnitude? s (if down then shift - e else shift + e)).map (.float l.negative)
      else if s = 0 ∨ down = true then some (.float l.negative ⟨0⟩)
      else none

end NumberLiteral

end AccessPolicy

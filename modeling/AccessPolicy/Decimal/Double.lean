import AccessPolicy.Decimal.Magnitude

/-! Binary64 numbers, infinities and NaN included, and their reading from text: an optional sign and
a decimal with digits on one side of the point at least, or a word, in any case of letters. A
decimal is rounded to the nearest number. -/

namespace AccessPolicy.Decimal

inductive Double where
  | finite (negative : Bool) (magnitude : Magnitude)
  | infinite (negative : Bool)
  | nan
  deriving DecidableEq

namespace Double

def isZero : Double → Bool
  | .finite _ x => x.units == 0
  | _ => false

/-- The nearest integer, of two the one farther from zero, within `0` and `top`; zero for NaN. -/
def saturate (top : Nat) : Double → Nat
  | .finite false x => min x.round top
  | .infinite false => top
  | _ => 0

def digitValue (c : Char) : Nat := c.toNat - '0'.toNat

def value (digits : List Char) : Nat := digits.foldl (fun n c => 10 * n + digitValue c) 0

/-- The value of an exponent behind its letter. -/
def exponent? (cs : List Char) : Option Int :=
  let (down, digits) := match cs with
    | '-' :: cs => (true, cs)
    | '+' :: cs => (false, cs)
    | cs => (false, cs)
  if digits.isEmpty ∨ digits.any (!·.isDigit) then none
  else some (if down then -(value digits) else value digits)

/-- A decimal without a sign. -/
def unsigned? (negative : Bool) (cs : List Char) : Option Double := do
  let integer := cs.takeWhile Char.isDigit
  let rest := cs.dropWhile Char.isDigit
  let (fraction, rest) := match rest with
    | '.' :: rest => (rest.takeWhile Char.isDigit, rest.dropWhile Char.isDigit)
    | rest => ([], rest)
  if integer.isEmpty ∧ fraction.isEmpty then none
  else
    let exponent ← match rest with
      | [] => some 0
      | c :: rest => if c = 'e' ∨ c = 'E' then exponent? rest else none
    match Magnitude.ofDecimal? (value (integer ++ fraction)) (exponent - fraction.length) with
    | some x => some (.finite negative x)
    | none => some (.infinite negative)

def ofText? (cs : List Char) : Option Double :=
  let (negative, cs) := match cs with
    | '-' :: cs => (true, cs)
    | '+' :: cs => (false, cs)
    | cs => (false, cs)
  let word := String.ofList (cs.map Char.toLower)
  if word = "inf" ∨ word = "infinity" then some (.infinite negative)
  else if word = "nan" then some .nan
  else unsigned? negative cs

end Double

end AccessPolicy.Decimal

import AccessPolicy.Decimal.Shortest
import AccessPolicy.Sorted

/-! JSON values and their compact text. An object keeps its members in order of their names, each
name once. -/

namespace AccessPolicy

/-- A JSON number: an integer of 64 bits, signed or not, or a binary64 number. -/
inductive Number where
  | integer (n : Int)
  | float (negative : Bool) (magnitude : Decimal.Magnitude)
  deriving DecidableEq

namespace Number

/-- Drops the zeros at the end of a digit string and counts them. -/
def trimZeros (digits : List Char) : List Char × Nat :=
  let zeros := (digits.reverse.takeWhile (· == '0')).length
  (digits.take (digits.length - zeros), zeros)

/-- A magnitude with the point `point` places behind the start of its digits: written out from
1e-5 on and below 1e16, with a digit behind the point at least, and else with an exponent that
has a sign. -/
def layout (digits : List Char) (point : Int) : List Char :=
  let n : Int := digits.length
  if -5 < point ∧ point ≤ 16 then
    if point ≤ 0 then '0' :: '.' :: (List.replicate (-point).toNat '0' ++ digits)
    else if point < n then
      digits.take point.toNat ++ '.' :: digits.drop point.toNat
    else digits ++ List.replicate (point - n).toNat '0' ++ ['.', '0']
  else
    let fraction := digits.drop 1
    let mantissa := digits.take 1 ++ if fraction.isEmpty then [] else '.' :: fraction
    let sign := if 0 < point then '+' else '-'
    mantissa ++ 'e' :: sign :: (toString (point - 1).natAbs).toList

def magnitudeText (x : Decimal.Magnitude) : String :=
  if x.units = 0 then "0.0"
  else
    let d := x.shortest
    let (digits, zeros) := trimZeros (toString d.digits).toList
    String.ofList (layout digits (digits.length + zeros + d.exponent))

def text : Number → String
  | .integer n => toString n
  | .float negative x => (if negative then "-" else "") ++ magnitudeText x

end Number

inductive Json where
  | null
  | bool (b : Bool)
  | number (n : Number)
  | string (s : String)
  | array (items : List Json)
  | object (members : List (String × Json))
  deriving Inhabited

namespace Json

def hexDigit (n : Nat) : Char := "0123456789abcdef".toList.getD n '0'

/-- Escapes the quote, the backslash and the control characters below the blank. -/
def escapeChar (c : Char) : List Char :=
  if c = '"' then ['\\', '"']
  else if c = '\\' then ['\\', '\\']
  else if c = '\x08' then ['\\', 'b']
  else if c = '\x0c' then ['\\', 'f']
  else if c = '\n' then ['\\', 'n']
  else if c = '\r' then ['\\', 'r']
  else if c = '\t' then ['\\', 't']
  else if c.toNat < 0x20 then
    ['\\', 'u', '0', '0', hexDigit (c.toNat / 16), hexDigit (c.toNat % 16)]
  else [c]

def quoted (s : String) : String :=
  String.ofList ('"' :: (s.toList.flatMap escapeChar ++ ['"']))

mutual

def text : Json → String
  | .null => "null"
  | .bool b => if b then "true" else "false"
  | .number n => n.text
  | .string s => quoted s
  | .array items => "[" ++ ",".intercalate (itemTexts items) ++ "]"
  | .object members => "\x7b" ++ ",".intercalate (memberTexts members) ++ "\x7d"

def itemTexts : List Json → List String
  | [] => []
  | j :: js => j.text :: itemTexts js

def memberTexts : List (String × Json) → List String
  | [] => []
  | (k, j) :: ms => (quoted k ++ ":" ++ j.text) :: memberTexts ms

end

end Json

end AccessPolicy

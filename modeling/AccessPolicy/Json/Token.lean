import AccessPolicy.Json.Number
import AccessPolicy.Text.Hex

/-! Tokens of JSON text. A string whose `\u` escapes do not pair up and a number that is too large
are tokens too, without a value. -/

namespace AccessPolicy.Json

inductive Token where
  | beginArray
  | endArray
  | beginObject
  | endObject
  | colon
  | comma
  | null
  | bool (b : Bool)
  | number (n : Option Number)
  | string (s : Option String)
  deriving DecidableEq

/-- A part of a string: a character, or a 16-bit unit written as a `\u` escape. -/
inductive Piece where
  | char (c : Char)
  | unit (n : Nat)
  deriving DecidableEq

def isHighSurrogate (n : Nat) : Bool := decide (0xD800 ≤ n) && decide (n < 0xDC00)

def isLowSurrogate (n : Nat) : Bool := decide (0xDC00 ≤ n) && decide (n < 0xE000)

/-- The characters of a string, if every surrogate unit is half of a pair. -/
def joinPieces : List Piece → Option (List Char)
  | [] => some []
  | .char c :: ps => (joinPieces ps).map (c :: ·)
  | .unit n :: ps =>
    if isHighSurrogate n then
      match ps with
      | .unit m :: qs =>
        if isLowSurrogate m then
          (joinPieces qs).map (Char.ofNat (0x10000 + (n - 0xD800) * 0x400 + (m - 0xDC00)) :: ·)
        else none
      | _ => none
    else if isLowSurrogate n then none
    else (joinPieces ps).map (Char.ofNat n :: ·)

/-- What an escape of one letter stands for. -/
def simpleEscape? : Char → Option Char
  | '"' => some '"'
  | '\\' => some '\\'
  | '/' => some '/'
  | 'b' => some '\x08'
  | 'f' => some '\x0c'
  | 'n' => some '\n'
  | 'r' => some '\r'
  | 't' => some '\t'
  | _ => none

/-- The parts of a string up to its closing quote, and the number of characters they take with
that quote. -/
def stringPieces : List Char → Option (List Piece × Nat)
  | [] => none
  | '"' :: _ => some ([], 1)
  | '\\' :: 'u' :: a :: b :: c :: d :: cs => do
    let n ← Text.hexValue? 0 [a, b, c, d]
    let (ps, k) ← stringPieces cs
    some (.unit n :: ps, k + 6)
  | '\\' :: c :: cs => do
    let e ← simpleEscape? c
    let (ps, k) ← stringPieces cs
    some (.char e :: ps, k + 2)
  | c :: cs =>
    if c.toNat < 0x20 ∨ c = '\\' then none
    else do
      let (ps, k) ← stringPieces cs
      some (.char c :: ps, k + 1)

def digitsOf (cs : List Char) : List Nat :=
  (cs.takeWhile Char.isDigit).map fun c => c.toNat - '0'.toNat

/-- The fraction at a place, if there is a point, and its length. -/
def fractionAt (cs : List Char) : Option (Option (List Nat) × Nat) :=
  match cs with
  | '.' :: cs =>
    let digits := digitsOf cs
    if digits.isEmpty then none else some (some digits, digits.length + 1)
  | _ => some (none, 0)

/-- The sign at a place, negative or not, and its length. -/
def signAt : List Char → Bool × Nat
  | '-' :: _ => (true, 1)
  | '+' :: _ => (false, 1)
  | _ => (false, 0)

/-- The exponent at a place, if there is one, and its length. -/
def exponentAt (cs : List Char) : Option (Option (Bool × List Nat) × Nat) :=
  match cs with
  | c :: cs =>
    if c = 'e' ∨ c = 'E' then
      let (down, k) := signAt cs
      let digits := digitsOf (cs.drop k)
      if digits.isEmpty then none else some (some (down, digits), digits.length + k + 1)
    else some (none, 0)
  | [] => some (none, 0)

/-- The number at a place and its length. A zero at its start is its whole integer part. -/
def numberAt (cs : List Char) : Option (NumberLiteral × Nat) := do
  let negative := cs.head? = some '-'
  let start := if negative then 1 else 0
  let digits := digitsOf (cs.drop start)
  let integer := if digits.head? = some 0 then [0] else digits
  if integer.isEmpty then none
  else do
    let n := start + integer.length
    let (fraction, k) ← fractionAt (cs.drop n)
    let (exponent, m) ← exponentAt (cs.drop (n + k))
    some (⟨negative, integer, fraction, exponent⟩, n + k + m)

/-- A word behind its first letter. -/
def wordAt (t : Token) (tail : String) (cs : List Char) : Option (Token × Nat) :=
  if tail.toList.isPrefixOf cs then some (t, tail.length) else none

/-- The token that starts with `c` and goes on in `cs`, with the number of characters that it
takes from `cs`. -/
def tokenAt (c : Char) (cs : List Char) : Option (Token × Nat) :=
  match c with
  | '[' => some (.beginArray, 0)
  | ']' => some (.endArray, 0)
  | '\x7b' => some (.beginObject, 0)
  | '\x7d' => some (.endObject, 0)
  | ':' => some (.colon, 0)
  | ',' => some (.comma, 0)
  | 'n' => wordAt .null "ull" cs
  | 't' => wordAt (.bool true) "rue" cs
  | 'f' => wordAt (.bool false) "alse" cs
  | '"' => (stringPieces cs).map fun (ps, k) => (.string ((joinPieces ps).map String.ofList), k)
  | c => (numberAt (c :: cs)).map fun (l, k) => (.number l.number?, k - 1)

def isSpace (c : Char) : Bool := c == ' ' || c == '\t' || c == '\n' || c == '\r'

def tokens (cs : List Char) : Option (List Token) :=
  match cs with
  | [] => some []
  | c :: cs =>
    if isSpace c then tokens cs
    else
      match tokenAt c cs with
      | none => none
      | some (t, k) => (tokens (cs.drop k)).map (t :: ·)
termination_by cs.length
decreasing_by all_goals simp only [List.length_drop, List.length_cons]; omega

end AccessPolicy.Json

import AccessPolicy.Text.Hex
import AccessPolicy.Toml.Basic

/-! Words and numbers of TOML. A word is read for its form first: where its underscores, its sign,
its point and its exponent stand. A word of the right form may still have no value. -/

namespace AccessPolicy.Toml

/-- Whether each underscore stands between two digits, where `digitBefore` tells whether a digit
comes before the text. -/
def underscoresFitAfter (isDigit : Char → Bool) (digitBefore : Bool) : List Char → Bool
  | [] => true
  | c :: cs =>
    if c = '_' then digitBefore && cs.head?.any isDigit && underscoresFitAfter isDigit false cs
    else underscoresFitAfter isDigit (isDigit c) cs

/-- Whether each underscore stands between two digits. -/
def underscoresFit (isDigit : Char → Bool) (cs : List Char) : Bool :=
  underscoresFitAfter isDigit false cs

def withoutUnderscores (cs : List Char) : List Char := cs.filter (· != '_')

def isHexDigit (c : Char) : Bool := (Text.hexDigit? c).isSome

def splitSign : List Char → List Char × List Char
  | '-' :: cs => (['-'], cs)
  | '+' :: cs => (['+'], cs)
  | cs => ([], cs)

/-- An integer; one out of the range that a document may hold has no value. -/
def ofInt (n : Int) : Toml :=
  if -0x80000000000000000000000000000000 ≤ n ∧ n < 0x100000000000000000000000000000000 then
    .integer n
  else .valueless

/-- An integer behind the mark of its base. Without digits it has no value. -/
def basedInteger? (base : Nat) (cs : List Char) : Option Toml :=
  let isDigit := fun c => (Text.hexDigit? c).any (· < base)
  let digits := withoutUnderscores cs
  if !underscoresFit isHexDigit cs || digits.any (!isDigit ·) then none
  else if digits.isEmpty then some .valueless
  else some (ofInt (digits.foldl (fun n c => base * n + (Text.hexDigit? c).getD 0) 0 : Nat))

/-- A decimal integer behind its sign. It starts with digits, the first of several not zero. Behind
its first underscore other characters may stand too, but then it has no value; a hexadecimal digit
counts as one where it joins an underscore. -/
def decimalInteger? (sign cs : List Char) : Option Toml :=
  let rest := cs.dropWhile Char.isDigit
  let digits := withoutUnderscores cs
  if cs.isEmpty || !(rest.isEmpty || rest.head? == some '_') ||
      (cs.head? == some '0' && cs.length != 1) || !underscoresFit isHexDigit cs then
    none
  else if digits.any (!·.isDigit) then some .valueless
  else
    let n : Int := Decimal.Double.value digits
    some (ofInt (if sign = ['-'] then -n else n))

def isNumberChar (c : Char) : Bool := c.isDigit || c == '_'

/-- Whether a digit is among the leading digits and underscores. -/
def startsWithDigits (cs : List Char) : Bool := (cs.takeWhile isNumberChar).any Char.isDigit

/-- Whether there is nothing or an exponent with its letter. -/
def isExponent : List Char → Bool
  | [] => true
  | c :: cs =>
    let digits := (splitSign cs).2
    (c == 'e' || c == 'E') && digits.all isNumberChar && digits.any Char.isDigit

/-- Whether the form is that of a float behind its sign: an integer part, of which the first of
several digits is not zero, and then a fraction, an exponent or both. -/
def isFloat (cs : List Char) : Bool :=
  let integer := cs.takeWhile isNumberChar
  startsWithDigits cs &&
    !(integer.head? == some '0' && decide (1 < (withoutUnderscores integer).length)) &&
    match cs.dropWhile isNumberChar with
    | '.' :: rest => startsWithDigits rest && isExponent (rest.dropWhile isNumberChar)
    | rest => isExponent rest

/-- A float behind its sign. One too large for a float has no value. -/
def decimalFloat? (sign cs : List Char) : Option Toml := do
  guard (isFloat cs && underscoresFit Char.isDigit cs)
  match ← Decimal.Double.ofText? (sign ++ withoutUnderscores cs) with
  | .infinite _ => some .valueless
  | x => some (.float x)

/-- The value of a number that may have a sign. -/
def number? (cs : List Char) : Option Toml :=
  let (sign, body) := splitSign cs
  if body = ['i', 'n', 'f'] then some (.float (.infinite (sign == ['-'])))
  else if body = ['n', 'a', 'n'] then some (.float .nan)
  else if body.any (· ∈ ['.', 'e', 'E']) then decimalFloat? sign body
  else decimalInteger? sign body

/-- The value of a word. -/
def word? (cs : List Char) : Option Toml :=
  if cs = ['t', 'r', 'u', 'e'] then some (.bool true)
  else if cs = ['f', 'a', 'l', 's', 'e'] then some (.bool false)
  else
    match cs with
    | '0' :: 'x' :: cs => basedInteger? 16 cs
    | '0' :: 'o' :: cs => basedInteger? 8 cs
    | '0' :: 'b' :: cs => basedInteger? 2 cs
    | cs => number? cs

/-- The characters that end a word. -/
def wordEnds : List Char := ['=', ',', '[', ']', '\x7b', '\x7d', '#', ' ', '\t', '\r', '\n']

def isWordChar (c : Char) : Bool := c ∉ wordEnds

end AccessPolicy.Toml

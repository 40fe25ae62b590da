import AccessPolicy.ParseError
import AccessPolicy.Text.Blank

/-! Cutting text into tokens. Between tokens stands trivia: blanks, and comments from `//` to the
end of the line. Every lexeme is the longest one that starts at its place. -/

namespace AccessPolicy

namespace Lexer

/-- The number of characters of the leading trivia, counted from inside a comment or not. -/
def triviaLength : Bool → List Char → Nat
  | _, [] => 0
  | true, c :: cs => triviaLength (c != '\n') cs + 1
  | false, '/' :: '/' :: cs => triviaLength true cs + 2
  | false, c :: cs => if Text.isBlank c then triviaLength false cs + 1 else 0

def isIdentStart (c : Char) : Bool := c.isAlpha || c == '_'

def isIdentChar (c : Char) : Bool := c.isAlphanum || c == '_'

/-- The number that decimal digits write. -/
def decimalValue (digits : List Char) : Nat :=
  digits.foldl (fun n c => 10 * n + (c.toNat - '0'.toNat)) 0

/-- The length of the raw contents of a string up to its closing quote, if it is closed; the
character behind a backslash does not close it. -/
def rawLength : List Char → Option Nat
  | [] => none
  | '"' :: _ => some 0
  | ['\\'] => none
  | '\\' :: _ :: cs => (rawLength cs).map (· + 2)
  | _ :: cs => (rawLength cs).map (· + 1)

/-- The symbol of one character. -/
def single? : Char → Option Symbol
  | '@' => some .at
  | '(' => some .leftParen
  | ')' => some .rightParen
  | '\x7b' => some .leftBrace
  | '\x7d' => some .rightBrace
  | '[' => some .leftBracket
  | ']' => some .rightBracket
  | ',' => some .comma
  | ';' => some .semicolon
  | ':' => some .colon
  | '.' => some .dot
  | '<' => some .less
  | '>' => some .greater
  | '!' => some .bang
  | '+' => some .plus
  | '-' => some .minus
  | '*' => some .star
  | _ => none

/-- The symbol of two characters. -/
def double? : Char → Char → Option Symbol
  | ':', ':' => some .colonColon
  | '=', '=' => some .equalEqual
  | '!', '=' => some .notEqual
  | '<', '=' => some .lessEqual
  | '>', '=' => some .greaterEqual
  | '&', '&' => some .andAnd
  | '|', '|' => some .orOr
  | _, _ => none

/-- The longest symbol at a place and the number of its characters behind the first. -/
def symbol? (c : Char) (cs : List Char) : Option (Symbol × Nat) :=
  match cs.head?.bind (double? c) with
  | some s => some (s, 1)
  | none => (single? c).map (·, 0)

/-- The token that starts with `c` and goes on in `cs`, with the number of characters that it
takes from `cs`. -/
def lexeme (c : Char) (cs : List Char) : Except ParseFault (Kind × Nat) :=
  match symbol? c cs with
  | some (s, n) => .ok (.symbol s, n)
  | none =>
    if c = '"' then
      match rawLength cs with
      | some n => .ok (.string (cs.take n), n + 1)
      | none => .error .unterminatedString
    else if c.isDigit then
      let digits := c :: cs.takeWhile Char.isDigit
      if decimalValue digits < 0x10000000000000000 then
        .ok (.int (decimalValue digits), digits.length - 1)
      else .error (.integerRange (String.ofList digits))
    else if isIdentStart c then
      let name := cs.takeWhile isIdentChar
      .ok (.ident (String.ofList (c :: name)), name.length)
    else if c = '=' ∨ c = '&' ∨ c = '|' then .error (.unknownOperator c)
    else .error (.unexpectedChar c)

/-- The tokens of a text that stands at a place. -/
def tokensAt (p : Position) (cs : List Char) : Except ParseError Tokens :=
  let n := triviaLength false cs
  let start := p.afterAll (cs.take n)
  match _h : cs.drop n with
  | [] => .ok ⟨[], start⟩
  | c :: rest =>
    match lexeme c rest with
    | .error fault => .error ⟨start, fault⟩
    | .ok (kind, m) =>
      (tokensAt (start.afterAll (c :: rest.take m)) (rest.drop m)).map fun ts =>
        ⟨⟨kind, start⟩ :: ts.list, ts.finish⟩
termination_by cs.length
decreasing_by
  have := congrArg List.length _h
  simp only [List.length_drop, List.length_cons] at this ⊢
  omega

end Lexer

def Tokens.ofText (text : String) : Except ParseError Tokens :=
  Lexer.tokensAt Position.start text.toList

end AccessPolicy

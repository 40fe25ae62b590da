import AccessPolicy.Text.Hex

/-! String literals. The raw text between the quotes is decoded into characters, each with the
note whether it was written as an escape; only patterns look at that note. -/

namespace AccessPolicy.Text

/-- A decoded character and whether it was escaped. -/
structure LiteralChar where
  char : Char
  escaped : Bool
  deriving DecidableEq

inductive EscapeFault where
  | unknown (c : Char)
  | dangling
  | braceExpected
  | unterminated
  | notHex (digits : String)
  | notScalar (digits : String)
  deriving DecidableEq

def EscapeFault.message : EscapeFault → String
  | .unknown c => "invalid escape sequence `\\" ++ String.singleton c ++ "`"
  | .dangling => "dangling `\\` in string literal"
  | .braceExpected => "expected `\x7b` after `\\u`"
  | .unterminated => "unterminated unicode escape"
  | .notHex digits => "invalid unicode escape `\\u\x7b" ++ digits ++ "\x7d`"
  | .notScalar digits => "invalid unicode scalar `\\u\x7b" ++ digits ++ "\x7d`"

/-- What a one-letter escape stands for. -/
def simpleEscape? : Char → Option Char
  | 'n' => some '\n'
  | 'r' => some '\r'
  | 't' => some '\t'
  | '0' => some '\x00'
  | '\\' => some '\\'
  | '"' => some '"'
  | '\'' => some '\''
  | '*' => some '*'
  | _ => none

/-- The number written by hexadecimal digits, at least one, after an optional plus sign. -/
def codePoint? : List Char → Option Nat
  | [] => none
  | '+' :: c :: cs => hexValue? 0 (c :: cs)
  | cs => hexValue? 0 cs

def scalar (hex : List Char) : Except EscapeFault Char :=
  match codePoint? hex with
  | none => .error (.notHex (String.ofList hex))
  | some n => if n.isValidChar then .ok (Char.ofNat n) else .error (.notScalar (String.ofList hex))

/-- The number of bytes of a text in UTF-8. -/
def byteLength : List Char → Nat
  | [] => 0
  | c :: cs => c.utf8Size + byteLength cs

mutual

/-- Decodes the raw text of a literal. -/
def decode : List Char → Except EscapeFault (List LiteralChar)
  | [] => .ok []
  | '\\' :: 'u' :: '\x7b' :: cs => decodeUnicode [] cs
  | '\\' :: 'u' :: _ => .error .braceExpected
  | '\\' :: c :: cs =>
    match simpleEscape? c with
    | some d => (decode cs).map (⟨d, true⟩ :: ·)
    | none => .error (.unknown c)
  | ['\\'] => .error .dangling
  | c :: cs => (decode cs).map (⟨c, false⟩ :: ·)

/-- Goes on inside a Unicode escape of which `hex` was read; a seventh byte is refused. -/
def decodeUnicode (hex : List Char) : List Char → Except EscapeFault (List LiteralChar)
  | [] => .error .unterminated
  | '\x7d' :: cs =>
    match scalar hex with
    | .ok c => (decode cs).map (⟨c, true⟩ :: ·)
    | .error e => .error e
  | c :: cs =>
    if byteLength hex = 6 then .error .unterminated else decodeUnicode (hex ++ [c]) cs

end

/-- The string that a literal denotes. -/
def unescape (raw : List Char) : Except EscapeFault (List Char) :=
  (decode raw).map (·.map LiteralChar.char)

end AccessPolicy.Text

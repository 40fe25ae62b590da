/-! Tokens of policy text. String tokens keep their raw contents, escapes included, because
strings and patterns decode them differently. A tokenised text is its tokens with their
positions and the position where the text ends. -/

namespace AccessPolicy

inductive Symbol where
  | at
  | leftParen
  | rightParen
  | leftBrace
  | rightBrace
  | leftBracket
  | rightBracket
  | comma
  | semicolon
  | colon
  | colonColon
  | dot
  | equalEqual
  | notEqual
  | less
  | lessEqual
  | greater
  | greaterEqual
  | andAnd
  | orOr
  | bang
  | plus
  | minus
  | star
  deriving DecidableEq

def Symbol.text : Symbol → String
  | .at => "@"
  | .leftParen => "("
  | .rightParen => ")"
  | .leftBrace => "\x7b"
  | .rightBrace => "\x7d"
  | .leftBracket => "["
  | .rightBracket => "]"
  | .comma => ","
  | .semicolon => ";"
  | .colon => ":"
  | .colonColon => "::"
  | .dot => "."
  | .equalEqual => "=="
  | .notEqual => "!="
  | .less => "<"
  | .lessEqual => "<="
  | .greater => ">"
  | .greaterEqual => ">="
  | .andAnd => "&&"
  | .orOr => "||"
  | .bang => "!"
  | .plus => "+"
  | .minus => "-"
  | .star => "*"

/-- A token without its position. -/
inductive Kind where
  | ident (name : String)
  | string (raw : List Char)
  | int (n : Nat)
  | symbol (s : Symbol)
  deriving DecidableEq

/-- How a token is named in a message. -/
def Kind.describe : Kind → String
  | .ident name => "`" ++ name ++ "`"
  | .string raw => "string \"" ++ String.ofList raw ++ "\""
  | .int n => "integer " ++ toString n
  | .symbol s => "`" ++ s.text ++ "`"

/-- A place in a text; lines and columns count from one, columns in characters. -/
structure Position where
  line : Nat
  column : Nat
  deriving DecidableEq

namespace Position

def start : Position := ⟨1, 1⟩

/-- The place behind a character that stands at a place. -/
def after (p : Position) (c : Char) : Position :=
  if c = '\n' then ⟨p.line + 1, 1⟩ else ⟨p.line, p.column + 1⟩

/-- The place behind a run of characters. -/
def afterAll (p : Position) (cs : List Char) : Position := cs.foldl after p

theorem afterAll_append (p : Position) (cs ds : List Char) :
    p.afterAll (cs ++ ds) = (p.afterAll cs).afterAll ds := List.foldl_append

end Position

structure Token where
  kind : Kind
  position : Position
  deriving DecidableEq

structure Tokens where
  list : List Token
  finish : Position
  deriving DecidableEq

namespace Tokens

def kinds (ts : Tokens) : List Kind := ts.list.map Token.kind

/-- The place of the token that has `remaining` tokens from itself on, or the end of the text. -/
def positionAt (ts : Tokens) (remaining : Nat) : Position :=
  match ts.list.drop (ts.list.length - remaining) with
  | [] => ts.finish
  | t :: _ => t.position

end Tokens

end AccessPolicy

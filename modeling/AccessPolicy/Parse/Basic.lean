import AccessPolicy.ParseError
import AccessPolicy.Taken
import AccessPolicy.Token.Lexer

/-! Steps over a list of token kinds. A step hands back what it read and the tokens that are left,
fewer than a stated bound; a failure tells how many tokens were left at its place. Layout and
positions play no part until `Parse.run` finds the place of a failure in the text. -/

namespace AccessPolicy

namespace Parse

structure Failure where
  fault : ParseFault
  /-- The number of tokens from the failing one on. -/
  remaining : Nat
  deriving DecidableEq

abbrev Step (α : Type) (n : Nat) := Except Failure (Taken Kind α n)

def fail {α : Type} (ts : List Kind) (fault : ParseFault) : Except Failure α :=
  .error ⟨fault, ts.length⟩

def expected {α : Type} (what : Expectation) (ts : List Kind) : Except Failure α :=
  fail ts (.expected what ts.head?)

/-- Takes one given token. -/
def expect (kind : Kind) (what : Expectation) (ts : List Kind) : Step Unit ts.length :=
  match Taken.accept? kind ts with
  | some r => .ok r
  | none => expected what ts

def symbol (s : Symbol) (ts : List Kind) : Step Unit ts.length :=
  expect (.symbol s) (.symbol s) ts

def keyword (word : String) (ts : List Kind) : Step Unit ts.length :=
  expect (.ident word) (.keyword word) ts

def ident (what : Expectation) : (ts : List Kind) → Step String ts.length
  | .ident name :: _ => .ok (.one name)
  | ts => expected what ts

/-- Takes a string and decodes it. -/
def string (what : Expectation) : (ts : List Kind) → Step String ts.length
  | .string raw :: ts =>
    match Text.unescape raw with
    | .ok cs => .ok (.one (String.ofList cs))
    | .error fault => fail (.string raw :: ts) (.badString fault)
  | ts => expected what ts

def identOrString (what : Expectation) : (ts : List Kind) → Step String ts.length
  | .ident name :: _ => .ok (.one name)
  | ts => string what ts

def endOfInput : (ts : List Kind) → Except Failure Unit
  | [] => .ok ()
  | k :: ts => expected .endOfInput (k :: ts)

/-- Reads a whole text, and finds the place of a failure in it. -/
def run {α : Type} (read : List Kind → Except Failure α) (text : String) :
    Except ParseError α := do
  let tokens ← Tokens.ofText text
  match read tokens.kinds with
  | .ok a => .ok a
  | .error f => .error ⟨tokens.positionAt f.remaining, f.fault⟩

end Parse

end AccessPolicy

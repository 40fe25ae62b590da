import AccessPolicy.Policy.Parser

/-! # A parser with a cursor

The readers of policy text as procedures that move a cursor over the tokens, of which the last one
stands for the end of the text, and that count levels up and down. A procedure that goes on forever
has no result. Looking at a token that is not there and going up from level zero are not errors of
the text: they stop the machine for good. -/

namespace AccessPolicy

/-- Where the parser stands: the current token and the level. -/
structure Cursor where
  index : Nat
  depth : Nat

namespace Cursor

/-- What a parser reads, and how deep it may go. -/
structure Input where
  source : Tokens
  bound : Nat

/-- The tokens, the last of which is the end of the text. -/
def Input.tokens (input : Input) : List (Option Kind × Position) :=
  input.source.list.map (fun t => (some t.kind, t.position)) ++ [(none, input.source.finish)]

/-- The cursor, and all places where it stood before, the last one first. -/
structure State where
  cursor : Cursor := ⟨0, 0⟩
  past : List Cursor := []

/-- All places of the cursor, the current one first. -/
def State.trail (s : State) : List Cursor := s.cursor :: s.past

/-- What ends a run before it has read its value: an error in the text, or a step that cannot be
done. -/
inductive Stop where
  | failed (e : ParseError)
  | panicked

abbrev Run := ExceptT Stop (StateT State Option)

variable {α : Type} (input : Input)

/-- Goes on forever. -/
def diverge : Run α := ExceptT.mk fun _ => none

/-! ## Steps of the cursor -/

def cursor : Run Cursor := return (← get).cursor

def moveTo (c : Cursor) : Run Unit := modify fun s => ⟨c, s.cursor :: s.past⟩

/-- A token at an index, with its place. -/
def tokenAt (index : Nat) : Run (Option Kind × Position) :=
  match input.tokens[index]? with
  | some t => pure t
  | none => throw .panicked

def peek : Run (Option Kind × Position) := do
  tokenAt input (← cursor).index

/-- The token behind the current one, or the last one. -/
def peekNext : Run (Option Kind) := do
  let t ← tokenAt input (min ((← cursor).index + 1) (input.tokens.length - 1))
  return t.1

/-- Goes on to the next token, but not behind the last one. -/
def advance : Run Unit := do
  let c ← cursor
  if c.index + 1 < input.tokens.length then moveTo { c with index := c.index + 1 }

/-- The current token is of this kind. -/
def isAt (k : Kind) : Run Bool := return (← peek input).1 == some k

def failAt (p : Position) (fault : ParseFault) : Run α := throw (.failed ⟨p, fault⟩)

def failHere (fault : ParseFault) : Run α := do
  failAt (← peek input).2 fault

def expected (what : Expectation) : Run α := do
  failHere input (.expected what (← peek input).1)

def expect (k : Kind) (what : Expectation) : Run Unit := do
  if ← isAt input k then advance input else expected input what

def symbol (s : Symbol) : Run Unit := expect input (.symbol s) (.symbol s)

def keyword (word : String) : Run Unit := expect input (.ident word) (.keyword word)

def ident (what : Expectation) : Run String := do
  match (← peek input).1 with
  | some (.ident name) => do
    advance input
    return name
  | _ => expected input what

/-- Decodes a string behind the cursor, which has gone on already. -/
def string (what : Expectation) : Run String := do
  let t ← peek input
  match t.1 with
  | some (.string raw) => do
    advance input
    match Text.unescape raw with
    | .ok cs => return String.ofList cs
    | .error fault => failAt t.2 (.badString fault)
  | _ => expected input what

def identOrString (what : Expectation) : Run String := do
  match (← peek input).1 with
  | some (.ident _) => ident input what
  | _ => string input what

def endOfInput : Run Unit := do
  match (← peek input).1 with
  | none => return ()
  | some _ => expected input .endOfInput

/-! ## Levels -/

def level : Run Nat := return (← cursor).depth

def setLevel (depth : Nat) : Run Unit := do
  moveTo { ← cursor with depth }

/-- Takes a level, and then fails if it is above the bound. -/
def descend : Run Unit := do
  let depth := (← level) + 1
  setLevel depth
  if input.bound < depth then failHere input (.tooDeep input.bound)

def ascend : Run Unit := do
  match ← level with
  | 0 => throw .panicked
  | depth + 1 => setLevel depth

end Cursor

end AccessPolicy

import AccessPolicy.Text.Literal

/-! Patterns of the `like` operator: characters that stand for themselves and wildcards that
stand for any run of characters. A pattern is matched in one pass: once a later wildcard is
reached, the run of an earlier one never has to grow. -/

namespace AccessPolicy

inductive PatternElem where
  | char (c : Char)
  | wildcard
  deriving DecidableEq

abbrev Pattern := List PatternElem

namespace Pattern

/-- A star that is not escaped is a wildcard. -/
def elemOf (c : Text.LiteralChar) : PatternElem :=
  if c.char = '*' ∧ c.escaped = false then .wildcard else .char c.char

/-- The pattern that the raw text of a literal denotes. -/
def compile (raw : List Char) : Except Text.EscapeFault Pattern :=
  (Text.decode raw).map (·.map elemOf)

/-- How an attempt to match ends: with a match, with a mismatch that a longer run of the last
wildcard may mend, or with one that no run mends. -/
inductive Verdict where
  | accept
  | retry
  | reject
  deriving DecidableEq

/-- Tries `attempt` after runs of growing length. -/
def afterRun (attempt : List Char → Verdict) : List Char → Verdict
  | [] =>
    match attempt [] with
    | .retry => .reject
    | v => v
  | c :: s =>
    match attempt (c :: s) with
    | .retry => afterRun attempt s
    | v => v

def scan : Pattern → List Char → Verdict
  | [], [] => .accept
  | [], _ :: _ => .retry
  | .char _ :: _, [] => .reject
  | .char c :: p, d :: s => if c = d then scan p s else .retry
  | .wildcard :: p, s => afterRun (scan p) s

def accepts (p : Pattern) (s : String) : Bool := decide (scan p s.toList = .accept)

end Pattern

end AccessPolicy

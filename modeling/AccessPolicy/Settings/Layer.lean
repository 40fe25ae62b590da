import AccessPolicy.Settings.Basic
import AccessPolicy.Text.Lower
import AccessPolicy.Text.Span
import AccessPolicy.Toml.Parser

/-! Layers of settings. Each layer is a table whose keys may be paths into nested tables and lists.
Layers are merged key by key: a table goes into the table that is there, anything else replaces
what is there. The types of settings are looked at only when all layers are merged, and
leniently. -/

namespace AccessPolicy

/-- A value of a layer. -/
inductive Item where
  | bool (b : Bool)
  | integer (n : Int)
  | float (x : Decimal.Double)
  | string (s : String)
  /-- A place of a list that nothing was put at. -/
  | gap
  | list (items : List Item)
  | table (entries : List (String × Item))
  deriving Inhabited

namespace Item

abbrev Entries := List (String × Item)

/-- The entries of a table; anything else has none. -/
def entriesOf : Option Item → Entries
  | some (.table es) => es
  | _ => []

mutual

/-- What is there after a value is merged into what was there. A table, even one without entries,
leaves a table: the one that was there with its entries merged in, or a new one. -/
def merge (old : Option Item) : Item → Item
  | .table es => .table (mergeEntries (entriesOf old) es)
  | v => v

def mergeEntries (es : Entries) : Entries → Entries
  | [] => es
  | (k, v) :: rest => mergeEntries (Fields.insert k (merge (Fields.find? es k) v) es) rest

end

/-- A step of a path: to the entry of a key, or to a place of a list. -/
inductive Step where
  | key (name : String)
  | index (n : Int)
  deriving DecidableEq

/-- The items of a list; anything else has none. -/
def itemsOf : Option Item → List Item
  | some (.list items) => items
  | _ => []

/-- A list with enough gaps to have a place, and that place; a negative one counts from the end. -/
def withPlace (n : Int) (items : List Item) : List Item × Nat :=
  if 0 ≤ n then (items ++ List.replicate (n.toNat + 1 - items.length) .gap, n.toNat)
  else (List.replicate (n.natAbs - items.length) .gap ++ items, items.length - n.natAbs)

/-- What is there after a value is merged in at a path; what is on the way becomes the table or list
that the next step goes into. -/
def put (v : Item) : List Step → Option Item → Item
  | [], old => merge old v
  | .key k :: path, old =>
    let es := entriesOf old
    .table (Fields.insert k (put v path (Fields.find? es k)) es)
  | .index n :: path, old =>
    let (items, i) := withPlace n (itemsOf old)
    .list (items.set i (put v path items[i]?))

def isKeyChar (c : Char) : Bool := c.isAlphanum || c == '_' || c == '-'

/-- The long that a text writes: one of `signs` or no sign, and then decimal digits. -/
def long? (signs : List Char) (cs : List Char) : Option Int :=
  let (negative, digits) := match cs with
    | c :: cs => if c ∈ signs then (c == '-', cs) else (false, c :: cs)
    | [] => (false, [])
  if digits.isEmpty ∨ digits.any (!·.isDigit) then none
  else
    let n : Int := Decimal.Double.value digits
    let n := if negative then -n else n
    if -0x8000000000000000 ≤ n ∧ n < 0x8000000000000000 then some n else none

/-- An index, spaces around it, and its closing bracket. -/
def index? (cs : List Char) : Option (Taken Char Int cs.length) := do
  let ⟨_, ts, h⟩ := Text.skipSpace cs
  let ⟨digits, ts₁, h₁⟩ := Text.span (fun c => c == '-' || c.isDigit) ts
  let ⟨_, ts₂, h₂⟩ := Text.skipSpace ts₁
  let close ← Taken.accept? ']' ts₂
  let n ← long? ['-'] digits
  some ((((close.map fun _ => n).afterOptional h₂).afterOptional h₁).afterOptional h)

/-- The steps of a path, each with the point or bracket before it. -/
def steps? (cs : List Char) : Option (List Step) :=
  match cs with
  | [] => some []
  | '.' :: cs =>
    let ⟨name, rest, _⟩ := Text.span isKeyChar cs
    if name.isEmpty then none else (steps? rest).map (.key (String.ofList name) :: ·)
  | '[' :: cs => do
    let ⟨n, rest, _⟩ ← index? cs
    let steps ← steps? rest
    some (.index n :: steps)
  | _ => none
termination_by cs.length
decreasing_by all_goals simp only [List.length_cons]; omega

/-- Merges an entry of a layer in. Its key is a path if it is written like one, of keys joined by
points and indices in brackets. -/
def putEntry (es : Entries) (key : String) (v : Item) : Entries :=
  let steps := (steps? ('.' :: key.toList)).getD [.key key]
  entriesOf (some (put v steps (some (.table es))))

/-- Merges all entries of a layer in. -/
def putLayer (es layer : Entries) : Entries :=
  layer.foldl (fun es e => putEntry es e.1 e.2) es

/-! ## Layers -/

mutual

/-- A TOML value as a value of a layer; its integers have to be longs. -/
def ofToml? : Toml → Option Item
  | .bool b => some (.bool b)
  | .integer n =>
    if -0x8000000000000000 ≤ n ∧ n < 0x8000000000000000 then some (.integer n) else none
  | .float x => some (.float x)
  | .valueless => none
  | .string s => some (.string s)
  | .array items => (ofTomlItems? items).map .list
  | .table _ es => (ofTomlEntries? es).map .table

def ofTomlItems? : List Toml → Option (List Item)
  | [] => some []
  | v :: vs => do
    let v ← ofToml? v
    let vs ← ofTomlItems? vs
    some (v :: vs)

def ofTomlEntries? : Toml.Entries → Option Entries
  | [] => some []
  | (k, v) :: es => do
    let v ← ofToml? v
    let es ← ofTomlEntries? es
    some ((k, v) :: es)

end

/-- The layer that a document writes. A byte order mark may stand in front of the whole document. -/
def layer? (text : String) : Option Entries :=
  (Toml.parse? .claimed (Text.behindMark text.toList)).bind ofTomlEntries?

def lowered (s : String) : String := String.ofList (Text.lower s.toList)

/-- The value of a variable of the environment: a boolean word in any case of letters, a long, a
float, or else the text itself. -/
def ofVariable (s : String) : Item :=
  if lowered s = "true" then .bool true
  else if lowered s = "false" then .bool false
  else
    match long? ['-', '+'] s.toList with
    | some n => .integer n
    | none =>
      match Decimal.Double.ofText? s.toList with
      | some x => .float x
      | none => .string s

/-- Writes a point for every two underscores, from the left. -/
def pointed : List Char → List Char
  | '_' :: '_' :: cs => '.' :: pointed cs
  | c :: cs => c :: pointed cs
  | [] => []

/-- The key of a variable whose name starts with the given characters, in lower case. -/
def variableKey? (start : List Char) (name : String) : Option String :=
  let name := Text.lower name.toList
  if start.isPrefixOf name then some (String.ofList (pointed (name.drop start.length))) else none

/-- The layer of an environment: the variables whose names start with a word and an underscore. -/
def ofEnvironment (word : String) (environment : List (String × String)) : Entries :=
  let start := Text.lower (word ++ "_").toList
  environment.filterMap fun v => (variableKey? start v.1).map fun key => (key, ofVariable v.2)

end Item

end AccessPolicy

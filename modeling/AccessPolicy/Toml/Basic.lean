import AccessPolicy.Decimal.Double
import AccessPolicy.Sorted

/-! TOML documents. A table remembers how it came to be, because that decides what may still be
added to it; its entries are kept in order of their keys. A number without a value is kept
as such, so that a reader can pass over it. -/

namespace AccessPolicy

namespace Toml

/-- How a table came to be: on the way to the table of a header, by a header itself, by a dotted
key, or as an inline value. -/
inductive Origin where
  | implied
  | header
  | dotted
  | inlined
  deriving DecidableEq

/-- What a dotted key may do with a table that a header implied on the way to its own. -/
inductive ImpliedRule where
  /-- Go through it, but not end in it. -/
  | passed
  /-- Make it a table of dotted keys. -/
  | claimed
  deriving DecidableEq

end Toml

inductive Toml where
  | bool (b : Bool)
  | integer (n : Int)
  | float (x : Decimal.Double)
  /-- A number that has the form of one, but is too large or has wrong digits. -/
  | valueless
  | string (s : String)
  | array (items : List Toml)
  | table (origin : Toml.Origin) (entries : List (String × Toml))
  deriving Inhabited

namespace Toml

abbrev Entries := List (String × Toml)

/-- What a table comes to be when a dotted key goes through it, to its last part or not. One that a
header or an inline value defined is closed to dotted keys. -/
def Origin.extended? (rule : ImpliedRule) (last : Bool) : Origin → Option Origin
  | .dotted => some .dotted
  | .implied =>
    match rule with
    | .claimed => some .dotted
    | .passed => if last then none else some .implied
  | .header | .inlined => none

/-- Gives a value to a dotted key, which has none yet. -/
def insert? (rule : ImpliedRule) (v : Toml) : List String → Entries → Option Entries
  | [], _ => none
  | [key], es =>
    match Fields.find? es key with
    | none => some (Fields.insert key v es)
    | some _ => none
  | key :: next :: path, es =>
    match Fields.find? es key with
    | none => do
      let inner ← insert? rule v (next :: path) []
      some (Fields.insert key (.table .dotted inner) es)
    | some (.table origin inner) => do
      let origin ← origin.extended? rule path.isEmpty
      let inner ← insert? rule v (next :: path) inner
      some (Fields.insert key (.table origin inner) es)
    | some _ => none

/-- Opens the table of a header. It is new, or was implied by another header. -/
def openTable? : List String → Entries → Option Entries
  | [], _ => none
  | [key], es =>
    match Fields.find? es key with
    | none => some (Fields.insert key (.table .header []) es)
    | some (.table .implied inner) => some (Fields.insert key (.table .header inner) es)
    | some _ => none
  | key :: next :: path, es =>
    match Fields.find? es key with
    | none => do
      let inner ← openTable? (next :: path) []
      some (Fields.insert key (.table .implied inner) es)
    | some (.table .inlined _) => none
    | some (.table origin inner) => do
      let inner ← openTable? (next :: path) inner
      some (Fields.insert key (.table origin inner) es)
    | some _ => none

/-- Gives a value to a dotted key of the table of a header. -/
def insertUnder? (rule : ImpliedRule) (key : List String) (v : Toml) :
    List String → Entries → Option Entries
  | [], es => insert? rule v key es
  | step :: path, es =>
    match Fields.find? es step with
    | some (.table origin inner) => do
      let inner ← insertUnder? rule key v path inner
      some (Fields.insert step (.table origin inner) es)
    | _ => none

mutual

/-- Whether all numbers in it have a value. -/
def hasValue : Toml → Bool
  | .valueless => false
  | .array items => itemsHaveValue items
  | .table _ es => entriesHaveValue es
  | .bool _ | .integer _ | .float _ | .string _ => true

def itemsHaveValue : List Toml → Bool
  | [] => true
  | v :: vs => v.hasValue && itemsHaveValue vs

def entriesHaveValue : List (String × Toml) → Bool
  | [] => true
  | (_, v) :: es => v.hasValue && entriesHaveValue es

end

end Toml

end AccessPolicy

import AccessPolicy.Uid.Basic
import AccessPolicy.Sorted

/-! Values of attributes and expressions. A set keeps its elements in increasing order without
repetition and a record its fields in increasing order of their names; `Value.ofItems` and
`Value.ofFields` build them so. -/

namespace AccessPolicy

inductive Value where
  | bool (b : Bool)
  | long (n : Int)
  | string (s : String)
  | set (items : List Value)
  | record (fields : List (String × Value))
  | entity (uid : Uid)
  deriving Inhabited

inductive ValueType where
  | bool
  | long
  | string
  | set
  | record
  | entity
  deriving DecidableEq

def ValueType.name : ValueType → String
  | .bool => "bool"
  | .long => "long"
  | .string => "string"
  | .set => "set"
  | .record => "record"
  | .entity => "entity"

/-- The integers of a signed 64-bit word. -/
def InLongRange (n : Int) : Prop := -0x8000000000000000 ≤ n ∧ n < 0x8000000000000000

instance (n : Int) : Decidable (InLongRange n) :=
  inferInstanceAs (Decidable (-0x8000000000000000 ≤ n ∧ n < 0x8000000000000000))

namespace Value

def type : Value → ValueType
  | .bool _ => .bool
  | .long _ => .long
  | .string _ => .string
  | .set _ => .set
  | .record _ => .record
  | .entity _ => .entity

def asBool? : Value → Option Bool
  | .bool b => some b
  | _ => none

def asLong? : Value → Option Int
  | .long n => some n
  | _ => none

def asString? : Value → Option String
  | .string s => some s
  | _ => none

def asSet? : Value → Option (List Value)
  | .set items => some items
  | _ => none

def asRecord? : Value → Option (List (String × Value))
  | .record fields => some fields
  | _ => none

def asEntity? : Value → Option Uid
  | .entity u => some u
  | _ => none

mutual

/-- The written form: sets in brackets, records in braces with quoted names. -/
def text : Value → String
  | .bool b => if b then "true" else "false"
  | .long n => toString n
  | .string s => Text.quoted s
  | .set items => "[" ++ ", ".intercalate (itemTexts items) ++ "]"
  | .record fields => "\x7b" ++ ", ".intercalate (fieldTexts fields) ++ "\x7d"
  | .entity u => u.text

def itemTexts : List Value → List String
  | [] => []
  | v :: vs => v.text :: itemTexts vs

def fieldTexts : List (String × Value) → List String
  | [] => []
  | (k, v) :: fs => (Text.quoted k ++ ": " ++ v.text) :: fieldTexts fs

end

end Value

end AccessPolicy

import AccessPolicy.Expr.Basic

/-! Why an expression has no value. -/

namespace AccessPolicy

/-- The methods of sets. -/
inductive Method where
  | contains
  | containsAll
  | containsAny
  | isEmpty
  deriving DecidableEq

namespace Method

def name : Method → String
  | .contains => "contains"
  | .containsAll => "containsAll"
  | .containsAny => "containsAny"
  | .isEmpty => "isEmpty"

def ofName? : String → Option Method
  | "contains" => some .contains
  | "containsAll" => some .containsAll
  | "containsAny" => some .containsAny
  | "isEmpty" => some .isEmpty
  | _ => none

theorem ofName?_name (m : Method) : ofName? m.name = some m := by cases m <;> rfl

/-- The number of arguments. -/
def arity : Method → Nat
  | .isEmpty => 0
  | _ => 1

end Method

/-- The kinds of value that an operator takes at a place. -/
inductive Expected where
  | type (t : ValueType)
  | entityOrRecord
  | entityOrEntities
  | entities
  deriving DecidableEq

def Expected.text : Expected → String
  | .type t => t.name
  | .entityOrRecord => "entity or record"
  | .entityOrEntities => "entity or set of entities"
  | .entities => "set of entities"

/-- Where an attribute was looked for. -/
inductive Holder where
  | record
  | entity (uid : Uid)
  deriving DecidableEq

def Holder.text : Holder → String
  | .record => "record"
  | .entity u => u.text

inductive EvalError where
  | typeMismatch (expected : Expected) (actual : ValueType)
  | attributeNotFound (attr : String) (on : Holder)
  | entityNotFound (uid : Uid)
  | undeclaredName (name : String)
  /-- A result outside the range of longs; a prefix minus counts as a subtraction. -/
  | overflow (op : ArithOp)
  | wrongArity (method : Method) (actual : Nat)
  deriving DecidableEq

def EvalError.message : EvalError → String
  | .typeMismatch expected actual =>
    "type error: expected " ++ expected.text ++ ", got " ++ actual.name
  | .attributeNotFound attr on => "attribute `" ++ attr ++ "` not found on " ++ on.text
  | .entityNotFound u => "entity " ++ u.text ++ " does not exist"
  | .undeclaredName name => "undeclared name `" ++ name ++ "`"
  | .overflow op => "integer overflow in `" ++ op.symbol ++ "`"
  | .wrongArity method actual =>
    "`" ++ method.name ++ "` expects " ++ toString method.arity ++ " argument(s), got " ++
      toString actual

end AccessPolicy

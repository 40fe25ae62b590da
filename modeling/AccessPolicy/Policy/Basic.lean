import AccessPolicy.Expr.Basic

/-! Policies: an effect, a scope that limits the requests it is about, conditions, and
annotations. The annotation `id` names a policy; its own id comes from its place. -/

namespace AccessPolicy

structure PolicyId where
  text : String
  deriving DecidableEq

/-- The id of the policy at a place, counted from zero. -/
def PolicyId.ofIndex (index : Nat) : PolicyId := ⟨"policy" ++ toString index⟩

inductive Effect where
  | permit
  | forbid
  deriving DecidableEq

def Effect.text : Effect → String
  | .permit => "permit"
  | .forbid => "forbid"

inductive ScopeConstraint where
  | any
  | equal (uid : Uid)
  | within (uid : Uid)
  | withinAny (uids : List Uid)
  | is (entityType : String)
  | isIn (entityType : String) (uid : Uid)
  deriving DecidableEq

structure Scope where
  principal : ScopeConstraint := .any
  action : ScopeConstraint := .any
  resource : ScopeConstraint := .any
  deriving DecidableEq

inductive ConditionKind where
  | when
  | unless
  deriving DecidableEq

def ConditionKind.text : ConditionKind → String
  | .when => "when"
  | .unless => "unless"

structure Condition where
  kind : ConditionKind
  body : Expr

/-- Keys with their values, in the order of their first declarations. -/
structure Annotations where
  list : List (String × String) := []
  deriving DecidableEq

namespace Annotations

/-- Replaces the value of `key` in its place, or adds it at the end. -/
def insertIn (key value : String) : List (String × String) → List (String × String)
  | [] => [(key, value)]
  | (k, v) :: l => if k = key then (k, value) :: l else (k, v) :: insertIn key value l

def insert (a : Annotations) (key value : String) : Annotations := ⟨insertIn key value a.list⟩

def get? (a : Annotations) (key : String) : Option String := a.list.lookup key

def size (a : Annotations) : Nat := a.list.length

end Annotations

structure Policy where
  id : PolicyId
  effect : Effect
  scope : Scope
  conditions : List Condition
  annotations : Annotations

namespace Policy

/-- The key of the annotation that names a policy. -/
def idKey : String := "id"

def name? (p : Policy) : Option String := p.annotations.get? idKey

/-- The annotations that a response shows: all but the name. -/
def reported (p : Policy) : List (String × String) :=
  p.annotations.list.filter fun a => a.1 != idKey

end Policy

end AccessPolicy

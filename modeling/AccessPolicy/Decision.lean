import AccessPolicy.Eval.Basic
import AccessPolicy.Policy.Set

/-! Deciding a request. A policy is satisfied when its scope matches and its conditions hold in
order; one whose condition has no truth value is left out and reported. A satisfied `forbid`
denies; otherwise a satisfied `permit` allows; otherwise the request is denied without a reason. -/

namespace AccessPolicy

inductive Decision where
  | allow
  | deny
  deriving DecidableEq

def Decision.text : Decision → String
  | .allow => "Allow"
  | .deny => "Deny"

/-- What a policy says to a request. -/
inductive Outcome where
  | notApplicable
  | satisfied
  | failed (e : EvalError)
  deriving DecidableEq

structure PolicyError where
  policy : PolicyId
  error : EvalError
  deriving DecidableEq

/-- An annotation of a policy that a decision rests on. -/
structure Note where
  policy : PolicyId
  key : String
  value : String
  deriving DecidableEq

structure Response where
  decision : Decision
  /-- The policies that the decision rests on, in source order. -/
  reasons : List PolicyId
  /-- The policies without an outcome, in source order. -/
  errors : List PolicyError
  notes : List Note
  deriving DecidableEq

def ScopeConstraint.accepts (s : Store) (u : Uid) : ScopeConstraint → Bool
  | .any => true
  | .equal v => decide (u = v)
  | .within v => s.isAncestor v u
  | .withinAny vs => vs.any fun v => s.isAncestor v u
  | .is entityType => decide (u.entityType = entityType)
  | .isIn entityType v => decide (u.entityType = entityType) && s.isAncestor v u

def Scope.accepts (env : Env) (scope : Scope) : Bool :=
  scope.principal.accepts env.store env.request.principal &&
    scope.action.accepts env.store env.request.action &&
      scope.resource.accepts env.store env.request.resource

/-- The truth value that a condition asks for. -/
def ConditionKind.wanted : ConditionKind → Bool
  | .when => true
  | .unless => false

/-- The outcome of conditions: up to the first that does not hold or has no truth value. -/
def conditionsOutcome (env : Env) : List Condition → Outcome
  | [] => .satisfied
  | c :: cs =>
    match evaluateBool env c.body with
    | .error e => .failed e
    | .ok b => if b = c.kind.wanted then conditionsOutcome env cs else .notApplicable

def Policy.outcome (env : Env) (p : Policy) : Outcome :=
  if p.scope.accepts env then conditionsOutcome env p.conditions else .notApplicable

/-- The satisfied policies of an effect. -/
def satisfiedBy (effect : Effect) (results : List (Policy × Outcome)) : List Policy :=
  results.filterMap fun r =>
    if r.2 = .satisfied ∧ r.1.effect = effect then some r.1 else none

def errorsOf (results : List (Policy × Outcome)) : List PolicyError :=
  results.filterMap fun r =>
    match r.2 with
    | .failed e => some ⟨r.1.id, e⟩
    | _ => none

def Policy.notes (p : Policy) : List Note := p.reported.map fun a => ⟨p.id, a.1, a.2⟩

namespace Response

/-- The response that rests on some policies. -/
def resting (decision : Decision) (ps : List Policy) (errors : List PolicyError) : Response :=
  ⟨decision, ps.map Policy.id, errors, ps.flatMap Policy.notes⟩

/-- The response to the outcomes of all policies. -/
def ofResults (results : List (Policy × Outcome)) : Response :=
  let errors := errorsOf results
  match satisfiedBy .forbid results, satisfiedBy .permit results with
  | p :: ps, _ => resting .deny (p :: ps) errors
  | [], p :: ps => resting .allow (p :: ps) errors
  | [], [] => resting .deny [] errors

end Response

/-- Decides requests. From `parallelThreshold` policies on, each policy is a task of its own;
zero keeps evaluation sequential. -/
structure Authorizer where
  parallelThreshold : Nat := 64
  deriving DecidableEq

namespace Authorizer

def runsParallel (a : Authorizer) (ps : PolicySet) : Bool :=
  decide (0 < a.parallelThreshold) && decide (a.parallelThreshold ≤ ps.size)

/-- Pairs every policy with what `f` makes of it. -/
def results {β : Type} (a : Authorizer) (ps : PolicySet) (f : Policy → β) : List (Policy × β) :=
  if a.runsParallel ps then
    let tasks := ps.policies.map fun p => (p, Task.spawn fun _ => f p)
    tasks.map fun t => (t.1, t.2.get)
  else ps.policies.map fun p => (p, f p)

theorem results_eq {β : Type} (a : Authorizer) (ps : PolicySet) (f : Policy → β) :
    a.results ps f = ps.policies.map fun p => (p, f p) := by
  simp [results, Function.comp_def, Task.spawn]

def authorize (a : Authorizer) (ps : PolicySet) (s : Store) (r : Request) : Response :=
  Response.ofResults (a.results ps (Policy.outcome ⟨r, s⟩))

/-- Looks at a flag before each policy; once it is raised there is no response. -/
def authorizeUnless (cancelled : Bool) (a : Authorizer) (ps : PolicySet) (s : Store)
    (r : Request) : Option Response :=
  let checked := a.results ps fun p => if cancelled then none else some (p.outcome ⟨r, s⟩)
  (checked.mapM fun (t : Policy × Option Outcome) => t.2.map fun o => (t.1, o)).map
    Response.ofResults

end Authorizer

end AccessPolicy

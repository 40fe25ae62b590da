import AccessPolicy.Proofs.Policy.Conjunction
import AccessPolicy.Proofs.Sorted
import AccessPolicy.Proofs.Value.Order

/-! # Scopes as clauses

A scope clause matches an entity by a rule of its own; `ScopeConstraint.clauses` says the same of a
variable in the language of conditions. Their truth values agree (`ScopeConstraint.all_clauses`),
and they never fault, so a policy may state its scope in front of its conditions instead. -/

namespace AccessPolicy

/-! ## Membership in a list of entities -/

namespace Eval

variable (s : Store) (u : Uid)

theorem inMembers_entities (us : List Uid) :
    inMembers s u (us.map .entity) = .ok (us.any fun v => s.isAncestor v u) := by
  induction us with
  | nil => rfl
  | cons v us ih =>
    rw [List.map_cons, inMembers, ih]
    rfl

/-- The set leaves out repetitions and the order of the list, which membership does not see. -/
theorem within_ofItems_entities (us : List Uid) :
    within s u (.ofItems (us.map .entity)) = .ok (us.any fun v => s.isAncestor v u) := by
  have hsorted : Sorted.ofList Value.compare (us.map .entity) =
      (Sorted.ofList Uid.compare us).map .entity :=
    Sorted.ofList_map (fun _ _ => by rw [Value.compare]) us
  have hany : ((Sorted.ofList Uid.compare us).any fun v => s.isAncestor v u) =
      us.any fun v => s.isAncestor v u := by
    rw [Bool.eq_iff_iff, List.any_eq_true, List.any_eq_true]
    simp only [Sorted.mem_ofList]
  rw [Value.ofItems, within, hsorted, inMembers_entities, hany]

end Eval

theorem evaluateItems_entities (env : Env) (us : List Uid) :
    evaluateItems env (us.map fun u => .literal (.entity u)) = .ok (us.map .entity) := by
  induction us with
  | nil => rfl
  | cons u us ih =>
    rw [List.map_cons, evaluateItems, evaluate, ih]
    rfl

/-! ## Clauses for a scope -/

/-- What a constraint says of an entity, said of the variable for it. -/
def ScopeConstraint.clauses (v : Var) : ScopeConstraint → List Condition
  | .any => []
  | .equal u => [⟨.when, .binary .equal (.var v) (.literal (.entity u))⟩]
  | .within u => [⟨.when, .binary .within (.var v) (.literal (.entity u))⟩]
  | .withinAny us =>
    [⟨.when, .binary .within (.var v) (.set (us.map fun u => .literal (.entity u)))⟩]
  | .is entityType => [⟨.when, .is (.var v) entityType⟩]
  | .isIn entityType u => [⟨.when, .isIn (.var v) entityType (.literal (.entity u))⟩]

def Scope.clauses (scope : Scope) : List Condition :=
  scope.principal.clauses .principal ++ scope.action.clauses .action ++
    scope.resource.clauses .resource

/-- The policy with its scope stated in front of its conditions. -/
def Policy.unscoped (p : Policy) : Policy :=
  { p with scope := {}, conditions := p.scope.clauses ++ p.conditions }

section Truth

variable {env : Env} {v : Var} {u : Uid}

/-- A test of the variable has the truth value of the test of its entity. -/
theorem evaluateBool_within (hv : evaluate env (.var v) = .ok (.entity u)) {target : Expr}
    {w : Value} (ht : evaluate env target = .ok w) :
    evaluateBool env (.binary .within (.var v) target) = Eval.within env.store u w := by
  rw [evaluateBool, evaluate, hv, ht]
  exact expectBool_bool (Eval.within env.store u w)

theorem ScopeConstraint.all_clauses (hv : evaluate env (.var v) = .ok (.entity u))
    (c : ScopeConstraint) :
    Result.all ((c.clauses v).map fun d => evaluateBool env d.expr) =
      .ok (c.accepts env.store u) := by
  cases c with
  | any => rfl
  | equal w =>
    rw [clauses, List.map_singleton, Result.all_singleton, Condition.expr, evaluateBool, evaluate,
      hv, evaluate]
    simp [Eval.binary, Eval.expectBool, bind, Except.bind, accepts, Value.asBool?]
  | within w =>
    rw [clauses, List.map_singleton, Result.all_singleton]
    exact evaluateBool_within hv (by rw [evaluate])
  | withinAny ws =>
    rw [clauses, List.map_singleton, Result.all_singleton]
    refine (evaluateBool_within hv ?_).trans (Eval.within_ofItems_entities env.store u ws)
    rw [evaluate, evaluateItems_entities]
    rfl
  | is entityType =>
    rw [clauses, List.map_singleton, Result.all_singleton, Condition.expr, evaluateBool, evaluate,
      hv]
    rfl
  | isIn entityType w =>
    rw [clauses, List.map_singleton, Result.all_singleton, Condition.expr, evaluateBool, evaluate,
      hv, evaluate, accepts]
    by_cases ht : u.entityType = entityType
    · simp [ht, Eval.expectEntity, Value.asEntity?, Eval.within, Eval.expectBool, Value.asBool?,
        bind, Except.bind]
    · simp [ht, Eval.expectEntity, Value.asEntity?, Eval.expectBool, Value.asBool?, bind,
        Except.bind]

end Truth

theorem Scope.all_clauses (env : Env) (scope : Scope) :
    Result.all (scope.clauses.map fun c => evaluateBool env c.expr) = .ok (scope.accepts env) := by
  have hprincipal := @ScopeConstraint.all_clauses env .principal _ rfl scope.principal
  have haction := @ScopeConstraint.all_clauses env .action _ rfl scope.action
  have hresource := @ScopeConstraint.all_clauses env .resource _ rfl scope.resource
  rw [clauses, List.map_append, List.map_append, Result.all_append, Result.all_append, hprincipal,
    haction, hresource, Result.both_ok, Result.both_ok, accepts, Bool.and_assoc]

/-- **A scope agrees with the clauses that say the same.** -/
theorem Policy.outcome_unscoped (env : Env) (p : Policy) :
    p.unscoped.outcome env = p.outcome env := by
  have hany : p.unscoped.scope.accepts env = true := rfl
  rw [outcome, if_pos hany, outcome]
  change conditionsOutcome env (p.scope.clauses ++ p.conditions) = _
  rw [conditionsOutcome_append, Scope.all_clauses, conditionsOutcome_eq]
  cases p.scope.accepts env with
  | false => rfl
  | true => rfl

end AccessPolicy

import AccessPolicy.Decision

/-! # What a policy says, in words of its clauses

A policy is satisfied when its scope matches and every clause holds; it fails
when its scope matches and a clause behind ones that hold has no truth value.
Both are said of the clauses alone, without an order of evaluation. The outcome
that evaluation finds is the one so described (`outcome_eq_satisfied_iff`,
`outcome_eq_failed_iff`). -/

namespace AccessPolicy

/-! ## Scopes -/

/-- When a scope clause matches an entity. -/
def ScopeConstraint.Matches (s : Store) (u : Uid) : ScopeConstraint → Prop
  | .any => True
  | .equal v => u = v
  | .within v => s.isAncestor v u = true
  | .withinAny vs => ∃ v ∈ vs, s.isAncestor v u = true
  | .is entityType => u.entityType = entityType
  | .isIn entityType v => u.entityType = entityType ∧ s.isAncestor v u = true

/-- All three clauses match the entities of the request. -/
structure Scope.Matches (env : Env) (scope : Scope) : Prop where
  principal : scope.principal.Matches env.store env.request.principal
  action : scope.action.Matches env.store env.request.action
  resource : scope.resource.Matches env.store env.request.resource

theorem ScopeConstraint.accepts_iff {s : Store} {u : Uid} {c : ScopeConstraint} :
    c.accepts s u = true ↔ c.Matches s u := by
  cases c <;> simp [accepts, Matches]

theorem Scope.accepts_iff {env : Env} {scope : Scope} :
    scope.accepts env = true ↔ scope.Matches env := by
  simp only [accepts, Bool.and_eq_true, ScopeConstraint.accepts_iff]
  constructor
  · rintro ⟨⟨hp, ha⟩, hr⟩
    exact ⟨hp, ha, hr⟩
  · rintro ⟨hp, ha, hr⟩
    exact ⟨⟨hp, ha⟩, hr⟩

/-! ## Clauses -/

/-- The body has the truth value that the clause asks for. -/
def Condition.Holds (env : Env) : Condition → Prop
  | ⟨.when, body⟩ => evaluate env body = .ok (.bool true)
  | ⟨.unless, body⟩ => evaluate env body = .ok (.bool false)

/-- The body has no truth value: it has no value at all, or one of another kind. -/
inductive Condition.Faults (env : Env) (c : Condition) : EvalError → Prop
  | noValue {e : EvalError} : evaluate env c.body = .error e → Faults env c e
  | noBool {v : Value} : evaluate env c.body = .ok v → v.type ≠ .bool →
      Faults env c (.typeMismatch (.type .bool) v.type)

theorem evaluateBool_eq_ok_iff {env : Env} {e : Expr} {b : Bool} :
    evaluateBool env e = .ok b ↔ evaluate env e = .ok (.bool b) := by
  unfold evaluateBool
  cases evaluate env e with
  | error err => simp [bind, Except.bind]
  | ok v => cases v <;> simp [bind, Except.bind, Eval.expectBool, Value.asBool?]

theorem Condition.holds_iff {env : Env} {c : Condition} :
    c.Holds env ↔ evaluateBool env c.body = .ok c.kind.wanted := by
  rw [evaluateBool_eq_ok_iff]
  obtain ⟨kind, body⟩ := c
  cases kind <;> rfl

theorem Eval.expectBool_of_type_ne {v : Value} (h : v.type ≠ .bool) :
    expectBool v = .error (.typeMismatch (.type .bool) v.type) := by
  cases v <;> first | rfl | exact absurd rfl h

theorem Condition.faults_iff {env : Env} {c : Condition} {e : EvalError} :
    c.Faults env e ↔ evaluateBool env c.body = .error e := by
  unfold evaluateBool
  constructor
  · intro h
    cases h with
    | noValue h => rw [h]; rfl
    | noBool h hv => rw [h]; exact Eval.expectBool_of_type_ne hv
  · intro h
    cases hv : evaluate env c.body with
    | error err =>
      rw [hv] at h
      cases h
      exact .noValue hv
    | ok v =>
      rw [hv] at h
      have ht : v.type ≠ .bool := by
        intro ht
        cases v <;> cases ht
        cases h
      have he := (Eval.expectBool_of_type_ne ht).symm.trans h
      cases he
      exact .noBool hv ht

/-! ## Policies -/

/-- The scope matches and every clause holds. -/
structure Policy.Satisfied (env : Env) (p : Policy) : Prop where
  inScope : p.scope.Matches env
  holds : ∀ c ∈ p.conditions, c.Holds env

/-- The scope matches and `e` is why the first clause that does not hold has no truth value. -/
structure Policy.FailsWith (env : Env) (p : Policy) (e : EvalError) : Prop where
  inScope : p.scope.Matches env
  fault : ∃ before c after, p.conditions = before ++ c :: after ∧
    (∀ b ∈ before, b.Holds env) ∧ c.Faults env e

def Policy.Fails (env : Env) (p : Policy) : Prop := ∃ e, p.FailsWith env e

/-- The first element behind ones with `P` is the head, or the head has `P` too. -/
theorem exists_behind_cons {α : Type} {P Q : α → Prop} {a : α} {l : List α} :
    (∃ before b after, a :: l = before ++ b :: after ∧ (∀ x ∈ before, P x) ∧ Q b) ↔
      Q a ∨ P a ∧ ∃ before b after, l = before ++ b :: after ∧ (∀ x ∈ before, P x) ∧ Q b := by
  constructor
  · rintro ⟨before, b, after, h, hp, hq⟩
    cases before with
    | nil =>
      obtain ⟨rfl, rfl⟩ := List.cons.inj h
      exact .inl hq
    | cons c before =>
      obtain ⟨rfl, rfl⟩ := List.cons.inj h
      obtain ⟨hc, hp⟩ := List.forall_mem_cons.mp hp
      exact .inr ⟨hc, before, b, after, rfl, hp, hq⟩
  · rintro (hq | ⟨ha, before, b, after, rfl, hp, hq⟩)
    · exact ⟨[], a, l, rfl, by simp, hq⟩
    · exact ⟨a :: before, b, after, rfl, List.forall_mem_cons.mpr ⟨ha, hp⟩, hq⟩

theorem conditionsOutcome_eq_satisfied_iff {env : Env} {cs : List Condition} :
    conditionsOutcome env cs = .satisfied ↔ ∀ c ∈ cs, c.Holds env := by
  induction cs with
  | nil => simp [conditionsOutcome]
  | cons c cs ih =>
    rw [conditionsOutcome, List.forall_mem_cons, Condition.holds_iff]
    cases evaluateBool env c.body with
    | error e => simp
    | ok b =>
      by_cases hb : b = c.kind.wanted
      · simp [hb, ih]
      · simp [hb]

theorem conditionsOutcome_eq_failed_iff {env : Env} {cs : List Condition} {e : EvalError} :
    conditionsOutcome env cs = .failed e ↔
      ∃ before c after, cs = before ++ c :: after ∧ (∀ b ∈ before, b.Holds env) ∧
        c.Faults env e := by
  induction cs with
  | nil => simp [conditionsOutcome]
  | cons c cs ih =>
    rw [conditionsOutcome, exists_behind_cons, ← ih, Condition.holds_iff, Condition.faults_iff]
    cases evaluateBool env c.body with
    | error e' => simp
    | ok b =>
      by_cases hb : b = c.kind.wanted
      · simp [hb]
      · simp [hb]

theorem Policy.outcome_eq_satisfied_iff {env : Env} {p : Policy} :
    p.outcome env = .satisfied ↔ p.Satisfied env := by
  unfold Policy.outcome
  split
  · rename_i h
    rw [conditionsOutcome_eq_satisfied_iff]
    exact ⟨fun hc => ⟨Scope.accepts_iff.mp h, hc⟩, fun hs => hs.holds⟩
  · rename_i h
    exact ⟨nofun, fun hs => absurd (Scope.accepts_iff.mpr hs.inScope) h⟩

theorem Policy.outcome_eq_failed_iff {env : Env} {p : Policy} {e : EvalError} :
    p.outcome env = .failed e ↔ p.FailsWith env e := by
  unfold Policy.outcome
  split
  · rename_i h
    rw [conditionsOutcome_eq_failed_iff]
    exact ⟨fun hc => ⟨Scope.accepts_iff.mp h, hc⟩, fun hf => hf.fault⟩
  · rename_i h
    exact ⟨nofun, fun hf => absurd (Scope.accepts_iff.mpr hf.inScope) h⟩

/-- No policy is both. -/
theorem Policy.Satisfied.not_fails {env : Env} {p : Policy} (h : p.Satisfied env) :
    ¬ p.Fails env := by
  rintro ⟨e, he⟩
  have hs := outcome_eq_satisfied_iff.mpr h
  rw [outcome_eq_failed_iff.mpr he] at hs
  cases hs

theorem Policy.FailsWith.unique {env : Env} {p : Policy} {e e' : EvalError}
    (h : p.FailsWith env e) (h' : p.FailsWith env e') : e = e' := by
  have he := (outcome_eq_failed_iff.mpr h).symm.trans (outcome_eq_failed_iff.mpr h')
  exact Outcome.failed.inj he

instance (env : Env) (p : Policy) : Decidable (p.Satisfied env) :=
  decidable_of_iff (p.outcome env = .satisfied) Policy.outcome_eq_satisfied_iff

instance (env : Env) (p : Policy) : Decidable (p.Fails env) :=
  match h : p.outcome env with
  | .failed e => isTrue ⟨e, Policy.outcome_eq_failed_iff.mp h⟩
  | .satisfied => isFalse (Policy.outcome_eq_satisfied_iff.mp h).not_fails
  | .notApplicable => isFalse fun ⟨_, he⟩ => by
    rw [Policy.outcome_eq_failed_iff.mpr he] at h
    cases h

end AccessPolicy

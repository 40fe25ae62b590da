import AccessPolicy.Decision

/-! # Clauses are conjoined by `&&`

A truth value, or the error in place of one, is a `Result Bool`. On these `Result.both` is what `&&`
does: the second counts only behind a true first one. It is associative with the true value as its
unit, so a list of clauses has one conjunction however it is grouped, and that conjunction tells the
outcome of the clauses (`conditionsOutcome_eq`, `Conjoins.evaluateBool_eq`). -/

namespace AccessPolicy

/-! ## Truth values -/

namespace Result

/-- The second truth value behind a true first one; otherwise the first, or its error. -/
def both (x y : Result Bool) : Result Bool := do
  if ← x then y else .ok false

@[simp] theorem both_false (y : Result Bool) : both (.ok false) y = .ok false := rfl

@[simp] theorem both_true (y : Result Bool) : both (.ok true) y = y := rfl

theorem both_ok (a b : Bool) : both (.ok a) (.ok b) = .ok (a && b) := by
  cases a <;> rfl

theorem both_assoc (x y z : Result Bool) : both (both x y) z = both x (both y z) := by
  cases x with
  | error e => rfl
  | ok b => cases b <;> rfl

/-- The conjunction of truth values from left to right. -/
def all (xs : List (Result Bool)) : Result Bool := xs.foldr both (.ok true)

@[simp] theorem all_cons (x : Result Bool) (xs : List (Result Bool)) :
    all (x :: xs) = both x (all xs) := rfl

theorem all_singleton (x : Result Bool) : all [x] = x := by
  cases x with
  | error e => rfl
  | ok b => cases b <;> rfl

theorem all_append (xs ys : List (Result Bool)) : all (xs ++ ys) = both (all xs) (all ys) := by
  induction xs with
  | nil => rfl
  | cons x xs ih => rw [List.cons_append, all_cons, all_cons, ih, both_assoc]

end Result

/-! ## Expressions -/

/-- A truth value is read back from the value made of it. -/
theorem expectBool_bool_map (x : Result Bool) (f : Bool → Bool) :
    (x >>= fun b => .ok (.bool (f b))) >>= Eval.expectBool = x.map f := by
  cases x with
  | error e => rfl
  | ok b => rfl

theorem expectBool_bool (x : Result Bool) :
    (x >>= fun b => .ok (.bool b)) >>= Eval.expectBool = x :=
  (expectBool_bool_map x id).trans (id_map x)

section Expressions

variable (env : Env)

theorem evaluate_and (lhs rhs : Expr) :
    evaluate env (.and lhs rhs) = evaluateBool env lhs >>= fun b =>
      if b then evaluateBool env rhs >>= fun c => .ok (.bool c) else .ok (.bool false) := by
  simp only [evaluate, evaluateBool, bind_assoc]

theorem evaluateBool_and (lhs rhs : Expr) :
    evaluateBool env (.and lhs rhs) =
      Result.both (evaluateBool env lhs) (evaluateBool env rhs) := by
  rw [evaluateBool, evaluate_and]
  cases evaluateBool env lhs with
  | error e => rfl
  | ok b =>
    cases b with
    | false => rfl
    | true => exact expectBool_bool (evaluateBool env rhs)

theorem evaluateBool_not (e : Expr) :
    evaluateBool env (.not e) = (evaluateBool env e).map (!·) := by
  have hnot : evaluate env (.not e) = evaluateBool env e >>= fun b => .ok (.bool (!b)) := by
    rw [evaluate, evaluateBool, bind_assoc]
  rw [evaluateBool, hnot]
  exact expectBool_bool_map (evaluateBool env e) (!·)

end Expressions

/-- Expressions joined by `&&` in their order, in any grouping; `true` stands for none of them. -/
inductive Conjoins : List Expr → Expr → Prop where
  | none : Conjoins [] (.literal (.bool true))
  | one (e : Expr) : Conjoins [e] e
  | and {ds es : List Expr} {d e : Expr} (hd : Conjoins ds d) (he : Conjoins es e) :
    Conjoins (ds ++ es) (.and d e)

theorem Conjoins.evaluateBool_eq {es : List Expr} {e : Expr} (h : Conjoins es e) (env : Env) :
    evaluateBool env e = Result.all (es.map (evaluateBool env)) := by
  induction h with
  | none => rfl
  | one e => exact (Result.all_singleton _).symm
  | and _ _ ihd ihe => rw [evaluateBool_and, ihd, ihe, List.map_append, Result.all_append]

/-- Every list of expressions can be joined. -/
theorem exists_conjoins (es : List Expr) : ∃ e, Conjoins es e := by
  induction es with
  | nil => exact ⟨_, .none⟩
  | cons e es ih =>
    obtain ⟨d, hd⟩ := ih
    exact ⟨_, .and (.one e) hd⟩

/-! ## Clauses -/

/-- The expression that is true where the clause holds. -/
def Condition.expr : Condition → Expr
  | ⟨.when, body⟩ => body
  | ⟨.unless, body⟩ => .not body

/-- The clause holds where the truth value of its body is the one it asks for. -/
theorem Condition.evaluateBool_expr (env : Env) : ∀ c : Condition,
    evaluateBool env c.expr = (evaluateBool env c.body).map fun b => decide (b = c.kind.wanted)
  | ⟨.when, body⟩ => by
    change evaluateBool env body = _
    cases evaluateBool env body with
    | error e => rfl
    | ok b => cases b <;> rfl
  | ⟨.unless, body⟩ => by
    change evaluateBool env (.not body) = _
    rw [evaluateBool_not]
    cases evaluateBool env body with
    | error e => rfl
    | ok b => cases b <;> rfl

/-- The outcome that a truth value stands for. -/
def Outcome.ofTruth : Result Bool → Outcome
  | .ok true => .satisfied
  | .ok false => .notApplicable
  | .error e => .failed e

theorem conditionsOutcome_eq (env : Env) (cs : List Condition) :
    conditionsOutcome env cs =
      .ofTruth (Result.all (cs.map fun c => evaluateBool env c.expr)) := by
  induction cs with
  | nil => rfl
  | cons c cs ih =>
    rw [conditionsOutcome, ih, List.map_cons, Result.all_cons, Condition.evaluateBool_expr]
    cases evaluateBool env c.body with
    | error e => rfl
    | ok b =>
      by_cases hb : b = c.kind.wanted
      · simp [hb, Except.map]
      · simp [hb, Except.map, Outcome.ofTruth]

theorem conditionsOutcome_append (env : Env) (cs ds : List Condition) :
    conditionsOutcome env (cs ++ ds) =
      .ofTruth (Result.both (Result.all (cs.map fun c => evaluateBool env c.expr))
        (Result.all (ds.map fun c => evaluateBool env c.expr))) := by
  rw [conditionsOutcome_eq, List.map_append, Result.all_append]

/-- **Clauses are conjoined by `&&`.** -/
theorem Policy.outcome_conjoined (env : Env) (p : Policy) :
    (∃ e, Conjoins (p.conditions.map Condition.expr) e) ∧
      ∀ e, Conjoins (p.conditions.map Condition.expr) e →
        { p with conditions := [⟨.when, e⟩] }.outcome env = p.outcome env := by
  refine ⟨exists_conjoins _, fun e he => ?_⟩
  have hwhole : evaluateBool env e =
      Result.all (p.conditions.map fun c => evaluateBool env c.expr) := by
    rw [he.evaluateBool_eq, List.map_map, Function.comp_def]
  rw [Policy.outcome, Policy.outcome, conditionsOutcome_eq, conditionsOutcome_eq, ← hwhole,
    List.map_singleton, Result.all_singleton]
  rfl

/-- Joined the other way round than it is read, behind a true clause: the second one is no boolean,
and the false one behind it is not reached. -/
theorem Policy.outcome_conjoined_no_bool :
    let u : Uid := ⟨"User", "ann"⟩
    let env : Env := ⟨⟨u, u, u, []⟩, .empty⟩
    let yes : Expr := .literal (.bool true)
    let one : Expr := .literal (.long 1)
    let no : Expr := .literal (.bool false)
    let p : Policy := ⟨.ofIndex 0, .forbid, {}, [⟨.when, yes⟩, ⟨.unless, one⟩, ⟨.when, no⟩], {}⟩
    let e : Expr := .and yes (.and (.not one) no)
    Conjoins (p.conditions.map Condition.expr) e ∧
      { p with conditions := [⟨.when, e⟩] }.outcome env = p.outcome env ∧
      p.outcome env = .failed (.typeMismatch (.type .bool) .long) := by
  intro u env yes one no p e
  have he : Conjoins (p.conditions.map Condition.expr) e :=
    .and (.one yes) (.and (.one (.not one)) (.one no))
  exact ⟨he, (outcome_conjoined env p).2 e he, by rfl⟩

end AccessPolicy

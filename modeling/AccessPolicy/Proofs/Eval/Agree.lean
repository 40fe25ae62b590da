import AccessPolicy.Proofs.Decision.Declared
import AccessPolicy.Proofs.Eval.Invariant

/-! # Evaluation over two stores

An expression asks a store for ancestry, and for the attributes of the entities that it comes
upon. Two stores that agree on both for the entities of `R` are not told apart: the values that
expressions have stay within `R` (`evaluate_stays_within`), so that each step gives the same result
in both (`evaluate_congr`), and this passes to policies and responses. -/

namespace AccessPolicy

variable {R : Uid → Prop}

/-- The stores have the same ancestry and the same attributes for the entities of `R`, and these
attributes refer to entities of `R` only. -/
structure Store.AgreeWithin (R : Uid → Prop) (s s' : Store) : Prop where
  isAncestor : s.isAncestor = s'.isAncestor
  attrs : ∀ u, R u → (s.get? u).map Entity.attr? = (s'.get? u).map Entity.attr?
  closed : ∀ u, R u → ∀ e, s.get? u = some e → ∀ name v, e.attr? name = some v → v.Within R

theorem Store.AgreeWithin.get?_cases {s s' : Store} (h : s.AgreeWithin R s') {u : Uid} (hu : R u) :
    (s.get? u = none ∧ s'.get? u = none) ∨
      ∃ e e', s.get? u = some e ∧ s'.get? u = some e' ∧ e.attr? = e'.attr? := by
  have hattrs := h.attrs u hu
  cases he : s.get? u with
  | none => exact .inl ⟨rfl, Option.map_eq_none_iff.mp (he ▸ hattrs).symm⟩
  | some e =>
    obtain ⟨e', he', hee⟩ := Option.map_eq_some_iff.mp (he ▸ hattrs).symm
    exact .inr ⟨e, e', rfl, he', hee.symm⟩

/-- The values of an environment that is within `R` refer to entities of `R` only. -/
theorem Store.AgreeWithin.everywhere {r : Request} {s s' : Store} (h : s.AgreeWithin R s')
    (hr : r.Within R) : (Env.mk r s).Everywhere fun w => ∀ u, w = .entity u → R u where
  vars x := by
    cases x with
    | principal => exact Value.within_entity_iff.mpr hr.principal
    | action => exact Value.within_entity_iff.mpr hr.action
    | resource => exact Value.within_entity_iff.mpr hr.resource
    | context => exact Value.within_record_iff.mpr hr.context
  attrs u hu := h.closed u (hu u rfl)

namespace Eval

/-! ## Operators -/

variable {s s' : Store}

theorem inMembers_congr (h : s.isAncestor = s'.isAncestor) (u : Uid) (vs : List Value) :
    inMembers s u vs = inMembers s' u vs := by
  induction vs with
  | nil => rfl
  | cons v vs ih =>
    cases v with
    | entity _ => simp only [inMembers, ih, h]
    | _ => rfl

theorem within_congr (h : s.isAncestor = s'.isAncestor) (u : Uid) (v : Value) :
    within s u v = within s' u v := by
  cases v with
  | entity _ => simp only [within, h]
  | set _ => exact inMembers_congr h u _
  | _ => rfl

theorem binary_congr (h : s.isAncestor = s'.isAncestor) (op : BinaryOp) (v w : Value) :
    binary s op v w = binary s' op v w := by
  cases op with
  | within => simp only [binary, within_congr h]
  | _ => rfl

theorem getAttr_congr (h : s.AgreeWithin R s') {v : Value} (hv : v.Within R) (attr : String) :
    getAttr s v attr = getAttr s' v attr := by
  cases v with
  | entity u =>
    simp only [getAttr]
    rcases h.get?_cases (Value.within_entity_iff.mp hv) with
      ⟨he, he'⟩ | ⟨e, e', he, he', hattr⟩
    · rw [he, he']
    · rw [he, he']
      simp only [hattr]
  | _ => rfl

theorem hasAttr_congr (h : s.AgreeWithin R s') {v : Value} (hv : v.Within R) (attr : String) :
    hasAttr s v attr = hasAttr s' v attr := by
  cases v with
  | entity u =>
    simp only [hasAttr]
    rcases h.get?_cases (Value.within_entity_iff.mp hv) with
      ⟨he, he'⟩ | ⟨e, e', he, he', hattr⟩
    · rw [he, he']
    · rw [he, he', Option.bind_some, Option.bind_some, hattr]
  | _ => rfl

end Eval

open Eval

/-! ## Expressions -/

section Expressions

variable {r : Request} {s s' : Store}

theorem evaluate_stays_within (hr : r.Within R) (hs : s.AgreeWithin R s') {e : Expr}
    (he : e.Within R) : Gives (Value.Within R) (evaluate ⟨r, s⟩ e) :=
  evaluate_everywhere (Value.holdsOfMade_refs R) (hs.everywhere hr) he

theorem evaluateItems_congr {env env' : Env} {es : List Expr}
    (h : ∀ e ∈ es, evaluate env e = evaluate env' e) :
    evaluateItems env es = evaluateItems env' es := by
  induction es with
  | nil => rfl
  | cons e es ih =>
    obtain ⟨he, hes⟩ := List.forall_mem_cons.mp h
    rw [evaluateItems, evaluateItems, he, ih hes]

theorem evaluateFields_congr {env env' : Env} {fs : List (String × Expr)}
    (h : ∀ e ∈ fs.map Prod.snd, evaluate env e = evaluate env' e) :
    evaluateFields env fs = evaluateFields env' fs := by
  induction fs with
  | nil => rfl
  | cons f fs ih =>
    obtain ⟨hf, hfs⟩ := List.forall_mem_cons.mp h
    rw [evaluateFields, evaluateFields, hf, ih hfs]

/-- By induction on the expression; the steps to an attribute need that the value before them is
within `R`. -/
theorem evaluate_congr (hr : r.Within R) (hs : s.AgreeWithin R s') {e : Expr} (he : e.Within R) :
    evaluate ⟨r, s⟩ e = evaluate ⟨r, s'⟩ e := by
  induction he with
  | @intro e _ hparts ih =>
    cases e with
    | literal _ | var _ | name _ | call _ _ => rw [evaluate, evaluate]
    | not e | neg e | like e _ | is e _ =>
      rw [evaluate, evaluate, ih e List.mem_cons_self]
    | and lhs rhs | or lhs rhs =>
      have hlhs := ih lhs (by simp [Expr.parts])
      have hrhs := ih rhs (by simp [Expr.parts])
      rw [evaluate, evaluate, hlhs, hrhs]
    | binary op lhs rhs =>
      have hlhs := ih lhs (by simp [Expr.parts])
      have hrhs := ih rhs (by simp [Expr.parts])
      rw [evaluate, evaluate, hlhs, hrhs]
      simp only [binary_congr hs.isAncestor]
    | cond test thenE elseE =>
      have htest := ih test (by simp [Expr.parts])
      have hthen := ih thenE (by simp [Expr.parts])
      have helse := ih elseE (by simp [Expr.parts])
      rw [evaluate, evaluate, htest, hthen, helse]
    | getAttr e attr =>
      rw [evaluate, evaluate, ← ih e List.mem_cons_self]
      exact (evaluate_stays_within hr hs (hparts e List.mem_cons_self)).bind_congr fun v hv =>
        getAttr_congr hs hv attr
    | hasAttr e attr =>
      rw [evaluate, evaluate, ← ih e List.mem_cons_self]
      refine (evaluate_stays_within hr hs (hparts e List.mem_cons_self)).bind_congr fun v hv => ?_
      rw [hasAttr_congr hs hv]
    | isIn e entityType target =>
      have he := ih e (by simp [Expr.parts])
      have htarget := ih target (by simp [Expr.parts])
      rw [evaluate, evaluate, he, htarget]
      simp only [within_congr hs.isAncestor]
    | set items =>
      have hitems : evaluateItems ⟨r, s⟩ items = evaluateItems ⟨r, s'⟩ items :=
        evaluateItems_congr ih
      rw [evaluate, evaluate, hitems]
    | record fields =>
      have hfields : evaluateFields ⟨r, s⟩ fields = evaluateFields ⟨r, s'⟩ fields :=
        evaluateFields_congr ih
      rw [evaluate, evaluate, hfields]
    | method receiver name args =>
      have hreceiver := ih receiver (by simp [Expr.parts])
      have hargs := evaluateItems_congr fun e he => ih e (List.mem_cons_of_mem receiver he)
      rw [evaluate, evaluate, hreceiver, hargs]

end Expressions

/-! ## Policies and responses -/

/-- Every reference in a literal of the conditions is to an entity of `R`. -/
def Policy.Within (R : Uid → Prop) (p : Policy) : Prop := ∀ c ∈ p.conditions, c.body.Within R

theorem Policy.within_of_forall (h : ∀ u, R u) (p : Policy) : p.Within R :=
  fun c _ => c.body.within_of_forall h

section Responses

variable {r : Request} {s s' : Store}

theorem conditionsOutcome_congr (hr : r.Within R) (hs : s.AgreeWithin R s') {cs : List Condition}
    (hcs : ∀ c ∈ cs, c.body.Within R) :
    conditionsOutcome ⟨r, s⟩ cs = conditionsOutcome ⟨r, s'⟩ cs := by
  induction cs with
  | nil => rfl
  | cons c cs ih =>
    obtain ⟨hc, hcs⟩ := List.forall_mem_cons.mp hcs
    have hbool : evaluateBool ⟨r, s⟩ c.body = evaluateBool ⟨r, s'⟩ c.body := by
      rw [evaluateBool, evaluateBool, evaluate_congr hr hs hc]
    rw [conditionsOutcome, conditionsOutcome, hbool, ih hcs]

/-- A scope asks for types and ancestry only, so its entities need not be of `R`. -/
theorem ScopeConstraint.accepts_congr (h : s.isAncestor = s'.isAncestor) (u : Uid)
    (c : ScopeConstraint) : c.accepts s u = c.accepts s' u := by
  cases c <;> simp only [accepts, h]

theorem Policy.outcome_congr (hr : r.Within R) (hs : s.AgreeWithin R s') {p : Policy}
    (hp : p.Within R) : p.outcome ⟨r, s⟩ = p.outcome ⟨r, s'⟩ := by
  have hscope : p.scope.accepts ⟨r, s⟩ = p.scope.accepts ⟨r, s'⟩ := by
    simp only [Scope.accepts, ScopeConstraint.accepts_congr hs.isAncestor]
  rw [Policy.outcome, Policy.outcome, hscope, conditionsOutcome_congr hr hs hp]

theorem Authorizer.authorize_eq_of_agreeWithin (a b : Authorizer) (hr : r.Within R)
    (hs : s.AgreeWithin R s') {ps : PolicySet} (hps : ∀ p ∈ ps.policies, p.Within R) :
    a.authorize ps s r = b.authorize ps s' r := by
  have houtcomes : outcomes ⟨r, s⟩ ps.policies = outcomes ⟨r, s'⟩ ps.policies :=
    List.map_congr_left fun p hp => by rw [Policy.outcome_congr hr hs (hps p hp)]
  rw [authorize_eq, authorize_eq, houtcomes]

end Responses

end AccessPolicy

import AccessPolicy.Proofs.Policy.Meaning
import Mathlib.Data.List.Forall2
import Mathlib.Data.List.Nodup

/-! # The decision that the policies declare

`Response.Declared` says which response the meaning of the policies calls for:
a satisfied `forbid` wins over a satisfied `permit`, which wins over the default
to deny, and every policy that fails is reported. `authorize_declared` shows that
an authorizer gives that response, however its policies are evaluated. -/

namespace AccessPolicy

/-- The satisfied policies of an effect, in source order. -/
def satisfiedOf (env : Env) (effect : Effect) (ps : List Policy) : List Policy :=
  ps.filter fun p => decide (p.effect = effect ∧ p.Satisfied env)

/-- The policies that fail, in source order. -/
def failingOf (env : Env) (ps : List Policy) : List Policy :=
  ps.filter fun p => decide (p.Fails env)

/-- The decision, the reasons and the errors that the policies call for. -/
structure Response.Declared (env : Env) (ps : List Policy) (r : Response) : Prop where
  forbidden : (∃ p ∈ ps, p.effect = .forbid ∧ p.Satisfied env) →
    r.decision = .deny ∧ r.reasons = (satisfiedOf env .forbid ps).map Policy.id
  permitted : (¬ ∃ p ∈ ps, p.effect = .forbid ∧ p.Satisfied env) →
    (∃ p ∈ ps, p.effect = .permit ∧ p.Satisfied env) →
    r.decision = .allow ∧ r.reasons = (satisfiedOf env .permit ps).map Policy.id
  defaulted : (¬ ∃ p ∈ ps, p.Satisfied env) → r.decision = .deny ∧ r.reasons = []
  errors : List.Forall₂ (fun p e => e.policy = p.id ∧ p.FailsWith env e.error)
    (failingOf env ps) r.errors

/-! ## The lists that a response is made of -/

/-- Every policy with its outcome. -/
def outcomes (env : Env) (ps : List Policy) : List (Policy × Outcome) :=
  ps.map fun p => (p, p.outcome env)

theorem mem_satisfiedOf {env : Env} {effect : Effect} {ps : List Policy} {p : Policy} :
    p ∈ satisfiedOf env effect ps ↔ p ∈ ps ∧ p.effect = effect ∧ p.Satisfied env := by
  simp [satisfiedOf]

theorem satisfiedOf_eq_nil_iff {env : Env} {effect : Effect} {ps : List Policy} :
    satisfiedOf env effect ps = [] ↔ ¬ ∃ p ∈ ps, p.effect = effect ∧ p.Satisfied env := by
  simp [satisfiedOf, List.filter_eq_nil_iff]

theorem satisfiedBy_outcomes (env : Env) (effect : Effect) (ps : List Policy) :
    satisfiedBy effect (outcomes env ps) = satisfiedOf env effect ps := by
  rw [satisfiedBy, outcomes, satisfiedOf, List.filterMap_map, ← List.filterMap_eq_filter]
  refine List.filterMap_congr fun p _ => ?_
  simp only [Function.comp_apply, Option.guard, Policy.outcome_eq_satisfied_iff, and_comm,
    decide_eq_true_eq]

theorem errorsOf_outcomes (env : Env) (ps : List Policy) :
    List.Forall₂ (fun p e => e.policy = p.id ∧ p.FailsWith env e.error)
      (failingOf env ps) (errorsOf (outcomes env ps)) := by
  induction ps with
  | nil => exact .nil
  | cons p ps ih =>
    simp only [errorsOf, outcomes, failingOf, List.map_cons, List.filterMap_cons,
      List.filter_cons] at ih ⊢
    cases ho : p.outcome env with
    | failed e =>
      have he : p.FailsWith env e := Policy.outcome_eq_failed_iff.mp ho
      have hf : p.Fails env := ⟨e, he⟩
      simp only [hf, decide_true, if_true]
      exact .cons ⟨rfl, he⟩ ih
    | satisfied =>
      have hf : ¬ p.Fails env := (Policy.outcome_eq_satisfied_iff.mp ho).not_fails
      simpa [hf] using ih
    | notApplicable =>
      have hf : ¬ p.Fails env := by
        rintro ⟨e, he⟩
        rw [Policy.outcome_eq_failed_iff.mpr he] at ho
        cases ho
      simpa [hf] using ih

/-- Policies that fail are not among the satisfied ones. -/
theorem satisfiedOf_without_failing (env : Env) (effect : Effect) (ps : List Policy) :
    satisfiedOf env effect (ps.filter fun p => decide (¬ p.Fails env)) =
      satisfiedOf env effect ps := by
  rw [satisfiedOf, satisfiedOf, List.filter_filter]
  refine List.filter_congr fun p _ => ?_
  by_cases h : p.Satisfied env
  · simp [h, h.not_fails]
  · simp [h]

/-! ## The response -/

theorem Response.ofResults_declared (env : Env) (ps : List Policy) :
    (Response.ofResults (outcomes env ps)).Declared env ps := by
  have herr := errorsOf_outcomes env ps
  simp only [Response.ofResults, satisfiedBy_outcomes]
  cases hf : satisfiedOf env .forbid ps with
  | cons p fs =>
    have hp : p ∈ ps ∧ p.effect = .forbid ∧ p.Satisfied env :=
      mem_satisfiedOf.mp (hf ▸ List.mem_cons_self)
    refine ⟨fun _ => ⟨rfl, by rw [hf]; rfl⟩, fun h => absurd ⟨p, hp⟩ h, ?_, herr⟩
    exact fun h => absurd ⟨p, hp.1, hp.2.2⟩ h
  | nil =>
    have hnf := satisfiedOf_eq_nil_iff.mp hf
    cases hp : satisfiedOf env .permit ps with
    | cons p qs =>
      have hm : p ∈ ps ∧ p.effect = .permit ∧ p.Satisfied env :=
        mem_satisfiedOf.mp (hp ▸ List.mem_cons_self)
      refine ⟨fun h => absurd h hnf, fun _ _ => ⟨rfl, by rw [hp]; rfl⟩, ?_, herr⟩
      exact fun h => absurd ⟨p, hm.1, hm.2.2⟩ h
    | nil =>
      have hnp := satisfiedOf_eq_nil_iff.mp hp
      exact ⟨fun h => absurd h hnf, fun _ h => absurd h hnp, fun _ => ⟨rfl, rfl⟩, herr⟩

/-- A policy that is satisfied has an effect. -/
theorem exists_satisfied_iff {env : Env} {ps : List Policy} :
    (∃ p ∈ ps, p.Satisfied env) ↔ (∃ p ∈ ps, p.effect = .forbid ∧ p.Satisfied env) ∨
      ∃ p ∈ ps, p.effect = .permit ∧ p.Satisfied env := by
  constructor
  · rintro ⟨p, hp, hs⟩
    cases he : p.effect with
    | forbid => exact .inl ⟨p, hp, he, hs⟩
    | permit => exact .inr ⟨p, hp, he, hs⟩
  · rintro (⟨p, hp, -, hs⟩ | ⟨p, hp, -, hs⟩)
    · exact ⟨p, hp, hs⟩
    · exact ⟨p, hp, hs⟩

/-- The policies call for one decision, one list of reasons and one list of errors. -/
theorem Response.Declared.unique {env : Env} {ps : List Policy} {x y : Response}
    (hx : x.Declared env ps) (hy : y.Declared env ps) :
    x.decision = y.decision ∧ x.reasons = y.reasons ∧ x.errors = y.errors := by
  have herr : x.errors = y.errors := by
    refine List.right_unique_forall₂' ?_ hx.errors hy.errors
    rintro p ⟨i, e⟩ ⟨j, f⟩ ⟨hi, he⟩ ⟨hj, hf⟩
    exact congr (congrArg PolicyError.mk (hi.trans hj.symm)) (he.unique hf)
  by_cases hf : ∃ p ∈ ps, p.effect = .forbid ∧ p.Satisfied env
  · obtain ⟨hxd, hxr⟩ := hx.forbidden hf
    obtain ⟨hyd, hyr⟩ := hy.forbidden hf
    exact ⟨hxd.trans hyd.symm, hxr.trans hyr.symm, herr⟩
  by_cases hp : ∃ p ∈ ps, p.effect = .permit ∧ p.Satisfied env
  · obtain ⟨hxd, hxr⟩ := hx.permitted hf hp
    obtain ⟨hyd, hyr⟩ := hy.permitted hf hp
    exact ⟨hxd.trans hyd.symm, hxr.trans hyr.symm, herr⟩
  · have hn : ¬ ∃ p ∈ ps, p.Satisfied env := fun h => (exists_satisfied_iff.mp h).elim hf hp
    obtain ⟨hxd, hxr⟩ := hx.defaulted hn
    obtain ⟨hyd, hyr⟩ := hy.defaulted hn
    exact ⟨hxd.trans hyd.symm, hxr.trans hyr.symm, herr⟩

/-- The reasons are ids of satisfied policies. -/
theorem Response.Declared.exists_of_mem_reasons {env : Env} {ps : List Policy} {r : Response}
    (h : r.Declared env ps) {id : PolicyId} (hid : id ∈ r.reasons) :
    ∃ p ∈ ps, p.id = id ∧ p.Satisfied env := by
  have hmem : ∀ effect, r.reasons = (satisfiedOf env effect ps).map Policy.id →
      ∃ p ∈ ps, p.id = id ∧ p.Satisfied env := by
    intro effect he
    obtain ⟨p, hp, rfl⟩ := List.mem_map.mp (he ▸ hid)
    obtain ⟨hps, -, hs⟩ := mem_satisfiedOf.mp hp
    exact ⟨p, hps, rfl, hs⟩
  by_cases hf : ∃ p ∈ ps, p.effect = .forbid ∧ p.Satisfied env
  · exact hmem _ (h.forbidden hf).2
  by_cases hp : ∃ p ∈ ps, p.effect = .permit ∧ p.Satisfied env
  · exact hmem _ (h.permitted hf hp).2
  · have hn : ¬ ∃ p ∈ ps, p.Satisfied env := fun h => (exists_satisfied_iff.mp h).elim hf hp
    rw [(h.defaulted hn).2] at hid
    exact absurd hid List.not_mem_nil

/-- The errors are about policies that fail. -/
theorem Response.Declared.exists_of_mem_errors {env : Env} {ps : List Policy} {r : Response}
    (h : r.Declared env ps) {e : PolicyError} (he : e ∈ r.errors) :
    ∃ p ∈ ps, p.id = e.policy ∧ p.Fails env := by
  have hall := h.errors
  obtain ⟨i, hi, rfl⟩ := List.getElem_of_mem he
  have hi' : i < (failingOf env ps).length := by rw [hall.length_eq]; exact hi
  obtain ⟨hid, hf⟩ := hall.get hi' hi
  exact ⟨_, (List.mem_filter.mp (List.getElem_mem hi')).1, hid.symm, _, hf⟩

/-! ## Authorizers -/

theorem PolicySet.eq_of_id_eq {ps : PolicySet} {p q : Policy} (hp : p ∈ ps.policies)
    (hq : q ∈ ps.policies) (h : p.id = q.id) : p = q :=
  List.inj_on_of_nodup_map ps.unambiguous.ids_nodup hp hq (congrArg PolicyId.text h)

namespace Authorizer

theorem authorize_eq (a : Authorizer) (ps : PolicySet) (s : Store) (r : Request) :
    a.authorize ps s r = Response.ofResults (outcomes ⟨r, s⟩ ps.policies) := by
  rw [authorize, results_eq, outcomes]

theorem authorizeUnless_false (a : Authorizer) (ps : PolicySet) (s : Store) (r : Request) :
    a.authorizeUnless false ps s r = some (a.authorize ps s r) := by
  have hall : ∀ qs : List Policy,
      (qs.map fun p => (p, some (p.outcome ⟨r, s⟩))).mapM
        (fun t : Policy × Option Outcome => t.2.map fun o => (t.1, o)) =
      some (outcomes ⟨r, s⟩ qs) := by
    intro qs
    induction qs with
    | nil => rfl
    | cons q qs ih => simp [ih, outcomes]
  simp only [authorizeUnless, results_eq, Bool.false_eq_true, if_false, hall, Option.map_some,
    authorize_eq]

/-- Policies that fail change neither the decision nor the reasons. -/
theorem authorize_congr {a b : Authorizer} {ps qs : PolicySet} {s : Store} {r : Request}
    (h : (qs.policies.filter fun p => decide (¬ p.Fails ⟨r, s⟩)) =
      ps.policies.filter fun p => decide (¬ p.Fails ⟨r, s⟩)) :
    (b.authorize qs s r).decision = (a.authorize ps s r).decision ∧
      (b.authorize qs s r).reasons = (a.authorize ps s r).reasons := by
  have hsat : ∀ effect, satisfiedOf ⟨r, s⟩ effect qs.policies =
      satisfiedOf ⟨r, s⟩ effect ps.policies := by
    intro effect
    rw [← satisfiedOf_without_failing, h, satisfiedOf_without_failing]
  simp only [authorize_eq, Response.ofResults, satisfiedBy_outcomes, hsat]
  cases satisfiedOf ⟨r, s⟩ .forbid ps.policies with
  | cons p fs => exact ⟨rfl, rfl⟩
  | nil =>
    cases satisfiedOf ⟨r, s⟩ .permit ps.policies with
    | cons p qs => exact ⟨rfl, rfl⟩
    | nil => exact ⟨rfl, rfl⟩

/-- **The response is the declared one.** Whatever the threshold, an authorizer
gives the one decision, reasons and errors that the policies call for, with no
policy under both reasons and errors. Policies that fail have no part in the
decision, and a flag that is never raised changes nothing. -/
theorem authorize_declared (a : Authorizer) (ps : PolicySet) (s : Store) (r : Request) :
    (∀ x : Response, x.Declared ⟨r, s⟩ ps.policies ↔
      x.decision = (a.authorize ps s r).decision ∧ x.reasons = (a.authorize ps s r).reasons ∧
        x.errors = (a.authorize ps s r).errors) ∧
      (∀ e ∈ (a.authorize ps s r).errors, e.policy ∉ (a.authorize ps s r).reasons) ∧
      (∀ qs : PolicySet,
        (qs.policies.filter fun p => decide (¬ p.Fails ⟨r, s⟩)) =
          (ps.policies.filter fun p => decide (¬ p.Fails ⟨r, s⟩)) →
        (a.authorize qs s r).decision = (a.authorize ps s r).decision ∧
          (a.authorize qs s r).reasons = (a.authorize ps s r).reasons) ∧
      a.authorizeUnless false ps s r = some (a.authorize ps s r) := by
  have hd : (a.authorize ps s r).Declared ⟨r, s⟩ ps.policies := by
    rw [authorize_eq]
    exact Response.ofResults_declared _ _
  refine ⟨fun x => ⟨fun hx => hx.unique hd, ?_⟩, ?_, fun qs h => authorize_congr h,
    authorizeUnless_false a ps s r⟩
  · rintro ⟨hdec, hrea, herr⟩
    exact ⟨hdec ▸ hrea ▸ hd.forbidden, hdec ▸ hrea ▸ hd.permitted, hdec ▸ hrea ▸ hd.defaulted,
      herr ▸ hd.errors⟩
  · intro e he hid
    obtain ⟨p, hp, hpid, hfail⟩ := hd.exists_of_mem_errors he
    obtain ⟨q, hq, hqid, hsat⟩ := hd.exists_of_mem_reasons hid
    have hpq : p = q := PolicySet.eq_of_id_eq hp hq (hpid.trans hqid.symm)
    exact hsat.not_fails (hpq ▸ hfail)

end Authorizer

end AccessPolicy

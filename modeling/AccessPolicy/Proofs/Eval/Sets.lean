import AccessPolicy.Proofs.Eval.Blame

/-! # Sets behave as sets

A set literal is the set of the values of its items (`evaluate_set_eq_ok_iff`). So its methods, its
equality and membership in it say of sets of values what their names say, and `SetLaws` lists this,
with `contains` as the test for an element. -/

namespace AccessPolicy

namespace Expr

/-- The expression is a boolean, which is true if and only if `p` is. -/
def Tells (env : Env) (e : Expr) (p : Prop) : Prop :=
  ∃ b, evaluate env e = .ok (.bool b) ∧ (b = true ↔ p)

/-- The expression is true. -/
def Holds (env : Env) (e : Expr) : Prop := evaluate env e = .ok (.bool true)

/-- The value is that of one of the expressions. -/
def ValueAmong (env : Env) (items : List Expr) (v : Value) : Prop :=
  ∃ e ∈ items, evaluate env e = .ok v

variable {env : Env} {e : Expr} {p q : Prop}

theorem Tells.holds_iff (h : e.Tells env p) : e.Holds env ↔ p := by
  obtain ⟨b, hb, hp⟩ := h
  rw [Holds, hb, ← hp]
  simp

theorem Tells.of_iff (h : e.Tells env p) (hpq : p ↔ q) : e.Tells env q := by
  obtain ⟨b, hb, hp⟩ := h
  exact ⟨b, hb, hp.trans hpq⟩

theorem tells_of_decide [Decidable p] (h : evaluate env e = .ok (.bool (decide p))) :
    e.Tells env p := ⟨_, h, decide_eq_true_iff⟩

end Expr

/-- What the operations on sets say of two sets, told by the values of their items. -/
structure SetLaws (env : Env) (s t : Expr) (items items' : List Expr) : Prop where
  contains : ∀ x w, evaluate env x = .ok w →
    (Expr.method s "contains" [x]).Tells env (Expr.ValueAmong env items w)
  containsAll : (Expr.method s "containsAll" [t]).Tells env
    (∀ w, Expr.ValueAmong env items' w → (Expr.method s "contains" [.literal w]).Holds env)
  containsAny : (Expr.method s "containsAny" [t]).Tells env
    (∃ w, Expr.ValueAmong env items' w ∧ (Expr.method s "contains" [.literal w]).Holds env)
  isEmpty : (Expr.method s "isEmpty" []).Tells env
    (∀ w, ¬ (Expr.method s "contains" [.literal w]).Holds env)
  equal : (Expr.binary .equal s t).Tells env
    ((Expr.method s "containsAll" [t]).Holds env ∧ (Expr.method t "containsAll" [s]).Holds env)
  within : ∀ x u, evaluate env x = .ok (.entity u) →
    (∀ w, Expr.ValueAmong env items' w → w.type = .entity) →
    (Expr.binary .within x t).Tells env
      (∃ w, Expr.ValueAmong env items' w ∧ (Expr.binary .within x (.literal w)).Holds env)
  within_error : ∀ x u, evaluate env x = .ok (.entity u) →
    (∃ w, Expr.ValueAmong env items' w ∧ w.type ≠ .entity) →
    ∃ w, Expr.ValueAmong env items' w ∧ w.type ≠ .entity ∧
      evaluate env (.binary .within x t) = .error (.typeMismatch .entities w.type)

open Eval

/-! ## Set literals -/

variable {env : Env}

theorem evaluate_set_eq_ok_iff {items : List Expr} {v : Value} :
    evaluate env (.set items) = .ok v ↔ ∃ ws, v = .set ws ∧ Sorted.Increasing Value.compare ws ∧
      (∀ e ∈ items, ∃ w, evaluate env e = .ok w) ∧ ∀ w, w ∈ ws ↔ Expr.ValueAmong env items w := by
  rw [evaluate, evaluateItems_eq_mapM]
  exact mapM_ofItems_eq_ok_iff

/-! ## Operations on sets -/

theorem evaluate_method (m : Method) {s : Expr} {xs : List Value} {args : List Expr}
    {vs : List Value} (hs : evaluate env s = .ok (.set xs))
    (hargs : evaluateItems env args = .ok vs) (hlen : args.length = m.arity) :
    evaluate env (.method s m.name args) = applyMethod m xs vs := by
  rw [evaluate, Method.ofName?_name]
  simp only [if_pos hlen, hs, hargs]
  rfl

theorem evaluateItems_singleton {e : Expr} {v : Value} (h : evaluate env e = .ok v) :
    evaluateItems env [e] = .ok [v] := by
  rw [evaluateItems, h]
  rfl

section Methods

variable {s t : Expr} {xs ys : List Value}

theorem tells_contains (hs : evaluate env s = .ok (.set xs)) {e : Expr} {v : Value}
    (he : evaluate env e = .ok v) : (Expr.method s "contains" [e]).Tells env (v ∈ xs) :=
  Expr.tells_of_decide (evaluate_method .contains hs (evaluateItems_singleton he) rfl)

theorem holds_contains_iff (hs : evaluate env s = .ok (.set xs)) {v : Value} :
    (Expr.method s "contains" [.literal v]).Holds env ↔ v ∈ xs :=
  (tells_contains hs rfl).holds_iff

theorem tells_containsAll (hs : evaluate env s = .ok (.set xs))
    (ht : evaluate env t = .ok (.set ys)) :
    (Expr.method s "containsAll" [t]).Tells env (∀ v ∈ ys, v ∈ xs) := by
  refine ⟨_, evaluate_method .containsAll hs (evaluateItems_singleton ht) rfl, ?_⟩
  simp

theorem tells_containsAny (hs : evaluate env s = .ok (.set xs))
    (ht : evaluate env t = .ok (.set ys)) :
    (Expr.method s "containsAny" [t]).Tells env (∃ v ∈ ys, v ∈ xs) := by
  refine ⟨_, evaluate_method .containsAny hs (evaluateItems_singleton ht) rfl, ?_⟩
  simp

theorem tells_isEmpty (hs : evaluate env s = .ok (.set xs)) :
    (Expr.method s "isEmpty" []).Tells env (∀ v, v ∉ xs) := by
  have hargs : evaluateItems env [] = .ok [] := rfl
  refine ⟨_, evaluate_method .isEmpty hs hargs rfl, ?_⟩
  rw [List.isEmpty_iff, List.eq_nil_iff_forall_not_mem]

theorem tells_equal {v w : Value} (hs : evaluate env s = .ok v) (ht : evaluate env t = .ok w) :
    (Expr.binary .equal s t).Tells env (v = w) := by
  refine Expr.tells_of_decide ?_
  rw [evaluate, hs, ht]
  rfl

end Methods

/-! ## Membership -/

theorem evaluate_within {x t : Expr} {u : Uid} {v : Value}
    (hx : evaluate env x = .ok (.entity u)) (ht : evaluate env t = .ok v) :
    evaluate env (.binary .within x t) = (within env.store u v).map .bool := by
  rw [evaluate, hx, ht]
  change (within env.store u v >>= fun b => Except.ok (Value.bool b)) = _
  cases within env.store u v <;> rfl

theorem inMembers_of_entities (s : Store) (u : Uid) {vs : List Value}
    (h : ∀ v ∈ vs, v.type = .entity) :
    ∃ b, inMembers s u vs = .ok b ∧
      (b = true ↔ ∃ v ∈ vs, within s u v = .ok true) := by
  induction vs with
  | nil => exact ⟨false, rfl, by simp⟩
  | cons v vs ih =>
    obtain ⟨hv, hvs⟩ := List.forall_mem_cons.1 h
    obtain ⟨b, hb, hmem⟩ := ih hvs
    cases v with
    | entity a =>
      refine ⟨s.isAncestor a u || b, ?_, ?_⟩
      · rw [inMembers, hb]
        rfl
      · simp [hmem, within]
    | _ => cases hv

/-- An element that is no entity is an error, whatever stands in front of it. -/
theorem inMembers_of_not_entity (s : Store) (u : Uid) {vs : List Value}
    (h : ∃ v ∈ vs, v.type ≠ .entity) :
    ∃ w ∈ vs, w.type ≠ .entity ∧ inMembers s u vs = .error (.typeMismatch .entities w.type) := by
  induction vs with
  | nil =>
    obtain ⟨v, hv, -⟩ := h
    cases hv
  | cons v vs ih =>
    cases v with
    | entity a =>
      obtain ⟨w, hw, hne⟩ := h
      obtain rfl | hw := List.mem_cons.1 hw
      · exact absurd rfl hne
      · obtain ⟨w, hw, hne, herror⟩ := ih ⟨w, hw, hne⟩
        refine ⟨w, List.mem_cons_of_mem _ hw, hne, ?_⟩
        rw [inMembers, herror]
        rfl
    | _ =>
      refine ⟨_, List.mem_cons_self, ?_, rfl⟩
      intro h
      cases h

section Within

variable {x t : Expr} {u : Uid} {ys : List Value}

theorem holds_within_iff {v : Value} (hx : evaluate env x = .ok (.entity u)) :
    (Expr.binary .within x (.literal v)).Holds env ↔ within env.store u v = .ok true := by
  rw [Expr.Holds, evaluate_within hx rfl]
  cases within env.store u v <;> simp [Except.map]

theorem tells_within (hx : evaluate env x = .ok (.entity u)) (ht : evaluate env t = .ok (.set ys))
    (hys : ∀ v ∈ ys, v.type = .entity) : (Expr.binary .within x t).Tells env
      (∃ v ∈ ys, (Expr.binary .within x (.literal v)).Holds env) := by
  obtain ⟨b, hb, hmem⟩ := inMembers_of_entities env.store u hys
  refine ⟨b, ?_, ?_⟩
  · rw [evaluate_within hx ht, within, hb]
    rfl
  · simp only [hmem, holds_within_iff hx]

theorem evaluate_within_eq_error (hx : evaluate env x = .ok (.entity u))
    (ht : evaluate env t = .ok (.set ys)) (hys : ∃ v ∈ ys, v.type ≠ .entity) :
    ∃ w ∈ ys, w.type ≠ .entity ∧
      evaluate env (.binary .within x t) = .error (.typeMismatch .entities w.type) := by
  obtain ⟨w, hw, hne, herror⟩ := inMembers_of_not_entity env.store u hys
  refine ⟨w, hw, hne, ?_⟩
  rw [evaluate_within hx ht, within, herror]
  rfl

end Within

/-! ## The laws -/

theorem setLaws_of_values {s t : Expr} {items items' : List Expr} {xs ys : List Value}
    (hs : evaluate env s = .ok (.set xs)) (ht : evaluate env t = .ok (.set ys))
    (hxs : Sorted.Increasing Value.compare xs) (hys : Sorted.Increasing Value.compare ys)
    (hitems : ∀ w, w ∈ xs ↔ Expr.ValueAmong env items w)
    (hitems' : ∀ w, w ∈ ys ↔ Expr.ValueAmong env items' w) : SetLaws env s t items items' where
  contains x w hx := (tells_contains hs hx).of_iff (hitems w)
  containsAll := by
    refine (tells_containsAll hs ht).of_iff ?_
    simp only [hitems', holds_contains_iff hs]
  containsAny := by
    refine (tells_containsAny hs ht).of_iff ?_
    simp only [hitems', holds_contains_iff hs]
  isEmpty := by
    refine (tells_isEmpty hs).of_iff ?_
    simp only [holds_contains_iff hs]
  equal := by
    refine (tells_equal hs ht).of_iff ?_
    rw [(tells_containsAll hs ht).holds_iff, (tells_containsAll ht hs).holds_iff, Value.set.injEq]
    constructor
    · rintro rfl
      exact ⟨fun v hv => hv, fun v hv => hv⟩
    · intro h
      exact Sorted.eq_of_mem_iff hxs hys fun v => ⟨h.2 v, h.1 v⟩
  within x u hx hentities := by
    simp only [← hitems'] at hentities ⊢
    exact tells_within hx ht hentities
  within_error x u hx hother := by
    simp only [← hitems'] at hother ⊢
    exact evaluate_within_eq_error hx ht hother

/-- **Set expressions behave as sets.** A set literal has a value if and only if all its items have
one, and two literals have the same value if and only if their items have the same values. On sets
of such values `contains` tells the elements, and the other methods, equality and membership in a
set are what they are for sets of these elements. -/
theorem evaluate_set_laws (env : Env) (items items' : List Expr) :
    ((∃ v, evaluate env (.set items) = .ok v) ↔ ∀ e ∈ items, ∃ w, evaluate env e = .ok w) ∧
    ∀ v v', evaluate env (.set items) = .ok v → evaluate env (.set items') = .ok v' →
      (v = v' ↔ ∀ w, Expr.ValueAmong env items w ↔ Expr.ValueAmong env items' w) ∧
      ∀ s t, evaluate env s = .ok v → evaluate env t = .ok v' → SetLaws env s t items items' := by
  constructor
  · rw [← exists_mapM_eq_ok_iff, evaluate, evaluateItems_eq_mapM]
    simp [Parse.bind_eq_ok_iff]
  · intro v v' hv hv'
    obtain ⟨xs, rfl, hxs, -, hitems⟩ := evaluate_set_eq_ok_iff.1 hv
    obtain ⟨ys, rfl, hys, -, hitems'⟩ := evaluate_set_eq_ok_iff.1 hv'
    refine ⟨?_, fun s t hs ht => setLaws_of_values hs ht hxs hys hitems hitems'⟩
    simp only [← hitems, ← hitems', Value.set.injEq]
    constructor
    · rintro rfl w
      rfl
    · exact Sorted.eq_of_mem_iff hxs hys

/-- Sets in a set, a repetition, and an element that is no entity. -/
theorem evaluate_set_laws_nested :
    let alice : Uid := ⟨"User", "alice"⟩
    let env : Env := ⟨⟨alice, alice, alice, []⟩, .empty⟩
    let one : Expr := .literal (.long 1)
    let two : Expr := .literal (.long 2)
    let items : List Expr := [.set [one, two], .var .principal]
    let items' : List Expr := [.var .principal, .set [two, one, two], .var .resource]
    let v : Value := .set [.set [.long 1, .long 2], .entity alice]
    evaluate env (.set items) = .ok v ∧ evaluate env (.set items') = .ok v ∧
      SetLaws env (.set items) (.set items') items items' ∧
      evaluate env (.method (.set items) "contains" [.set [two, one]]) = .ok (.bool true) ∧
      evaluate env (.binary .within (.var .principal) (.set items')) =
        .error (.typeMismatch .entities .set) := by
  intro alice env one two items items' v
  have hv : evaluate env (.set items) = .ok v := rfl
  have hv' : evaluate env (.set items') = .ok v := by decide +kernel
  have hlaws := ((evaluate_set_laws env items items').2 v v hv hv').2 _ _ hv hv'
  exact ⟨hv, hv', hlaws, rfl, rfl⟩

end AccessPolicy

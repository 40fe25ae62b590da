import AccessPolicy.Eval.Basic

/-! # Paths of attributes

A store follows a path of names through records only (`Store.descend`), and an expression follows
it through the attributes of entities too (`Eval.getPath`). The two agree as long as no value on the
way is an entity (`Store.descend_eq_some_iff`), and both miss the entity that they start from under
the same condition. -/

namespace AccessPolicy

/-- The attributes of the path, one after the other, the first of them of `e`. -/
def Expr.access (e : Expr) (path : List String) : Expr := path.foldl .getAttr e

namespace Eval

/-- The value at the end of a path that starts from a value. -/
def getPath (s : Store) (v : Value) (path : List String) : Result Value := path.foldlM (getAttr s) v

theorem getPath_cons (s : Store) (v : Value) (name : String) (path : List String) :
    getPath s v (name :: path) = getAttr s v name >>= fun w => getPath s w path :=
  List.foldlM_cons

theorem getAttr_eq_entityNotFound {s : Store} {v : Value} {name : String} {u : Uid}
    (h : getAttr s v name = .error (.entityNotFound u)) : s.get? u = none := by
  cases v with
  | entity u' =>
    rw [getAttr] at h
    cases he : s.get? u' with
    | none =>
      rw [he] at h
      cases h
      exact he
    | some e =>
      rw [he] at h
      dsimp only at h
      cases hw : e.attr? name <;> rw [hw] at h <;> cases h
  | record fields =>
    rw [getAttr] at h
    cases hw : Fields.find? fields name <;> rw [hw] at h <;> cases h
  | _ => cases h

/-- Only an entity that is not loaded is not found, wherever on the path it is looked for. -/
theorem getPath_eq_entityNotFound {s : Store} {v : Value} {path : List String} {u : Uid}
    (h : getPath s v path = .error (.entityNotFound u)) : s.get? u = none := by
  induction path generalizing v with
  | nil => cases h
  | cons name path ih =>
    rw [getPath_cons] at h
    cases hw : getAttr s v name with
    | error x =>
      rw [hw] at h
      cases h
      exact getAttr_eq_entityNotFound hw
    | ok w =>
      rw [hw] at h
      exact ih h

end Eval

open Eval

theorem evaluate_access (env : Env) (e : Expr) (path : List String) :
    evaluate env (e.access path) = evaluate env e >>= fun v => getPath env.store v path := by
  induction path generalizing e with
  | nil => exact (bind_pure _).symm
  | cons name path ih =>
    rw [Expr.access, List.foldl_cons, ← Expr.access, ih, evaluate, bind_assoc]
    simp only [getPath_cons]

theorem evaluate_access_entity (env : Env) (u : Uid) (path : List String) :
    evaluate env ((Expr.literal (.entity u)).access path) = getPath env.store (.entity u) path := by
  rw [evaluate_access, evaluate]
  rfl

namespace Store

/-- On a path that meets no entity before its end, fields are all that is looked up. -/
theorem descend_eq_some_iff (s : Store) {v w : Value} {path : List String} :
    descend v path = some w ↔ getPath s v path = .ok w ∧
      ∀ i < path.length, ∀ u, getPath s v (path.take i) ≠ .ok (.entity u) := by
  induction path generalizing v with
  | nil =>
    rw [descend]
    change some v = some w ↔ Except.ok v = Except.ok w ∧ _
    simp
  | cons name path ih =>
    cases v with
    | record fields =>
      rw [descend, getPath_cons, getAttr]
      cases hfield : Fields.find? fields name with
      | none => simp [bind, Except.bind]
      | some v =>
        have hstep : ∀ names, getPath s (.record fields) (name :: names) = getPath s v names := by
          intro names
          rw [getPath_cons, getAttr, hfield]
          rfl
        rw [Option.bind_some, ih, List.length_cons, Nat.forall_lt_succ_left]
        simp only [List.take_zero, List.take_succ_cons, hstep]
        refine and_congr_right fun _ => (and_iff_right fun u => ?_).symm
        exact nofun
    | entity u =>
      refine iff_of_false nofun fun h => ?_
      exact h.2 0 (Nat.zero_lt_succ _) u rfl
    | _ => exact iff_of_false nofun fun h => nomatch h.1

theorem attributeAt_eq_entityNotFound_iff {s : Store} {u : Uid} {path : List String} :
    s.attributeAt u path = .error (.entityNotFound u) ↔ s.get? u = none := by
  rw [attributeAt]
  cases s.get? u with
  | none => simp
  | some e =>
    cases path with
    | nil => simp
    | cons name rest =>
      dsimp only
      cases (e.attr? name).bind fun v => descend v rest <;> simp

/-- From a loaded entity a path starts with an attribute and goes on through records. -/
theorem attributeAt_eq_ok_iff {s : Store} {u : Uid} {name : String} {rest : List String}
    {v : Value} :
    s.attributeAt u (name :: rest) = .ok v ↔ ∃ w, getAttr s (.entity u) name = .ok w ∧
      descend w rest = some v := by
  rw [attributeAt, getAttr]
  cases s.get? u with
  | none => simp
  | some e =>
    dsimp only
    cases e.attr? name with
    | none => simp
    | some w =>
      rw [Option.bind_some]
      cases hrest : descend w rest <;> simp [hrest]

/-- **A store and an expression agree on paths of attributes.** What the store finds at the end of
a path is what the expression evaluates to, if no value on the way is an entity. An expression goes
on through an entity and a store does not. Both miss the entity at the start of the path if it is
not loaded, and only then. -/
theorem attributeAt_access (s : Store) (r : Request) (u : Uid) (path : List String)
    (hpath : path ≠ []) :
    let e := (Expr.literal (.entity u)).access
    (∀ v, s.attributeAt u path = .ok v ↔ evaluate ⟨r, s⟩ (e path) = .ok v ∧
      ∀ i, 1 ≤ i → i < path.length → ∀ w, evaluate ⟨r, s⟩ (e (path.take i)) ≠ .ok (.entity w)) ∧
    (s.attributeAt u path = .error (.entityNotFound u) ↔ s.get? u = none) ∧
    (evaluate ⟨r, s⟩ (e path) = .error (.entityNotFound u) ↔ s.get? u = none) := by
  intro e
  obtain ⟨name, rest, rfl⟩ := List.exists_cons_of_ne_nil hpath
  have hstep : ∀ names, evaluate ⟨r, s⟩ (e (name :: names)) =
      getAttr s (.entity u) name >>= fun w => getPath s w names := by
    intro names
    rw [evaluate_access_entity, getPath_cons]
  refine ⟨fun v => ?_, attributeAt_eq_entityNotFound_iff, fun h => ?_, fun h => ?_⟩
  · rw [attributeAt_eq_ok_iff, hstep]
    cases hw : getAttr s (.entity u) name with
    | error x => exact iff_of_false nofun fun h => nomatch h.1
    | ok w =>
      simp only [Except.ok.injEq, exists_eq_left', descend_eq_some_iff s]
      refine and_congr_right fun _ => ⟨fun h i hpos hi => ?_, fun h i hi => ?_⟩
      · obtain ⟨j, rfl⟩ := Nat.exists_eq_add_of_le' hpos
        rw [List.take_succ_cons, hstep, hw]
        exact h j (Nat.lt_of_succ_lt_succ hi)
      · have hnext := h (i + 1) (Nat.le_add_left 1 i) (Nat.succ_lt_succ hi)
        rw [List.take_succ_cons, hstep, hw] at hnext
        exact hnext
  · rw [evaluate_access_entity] at h
    exact getPath_eq_entityNotFound h
  · rw [hstep, getAttr, h]
    rfl

/-- The owner's profile is a record, and her manager is an entity that has a name. -/
theorem attributeAt_access_manager :
    let alice : Uid := ⟨"User", "alice"⟩
    let bob : Uid := ⟨"User", "bob"⟩
    let profile : Value := .record [("city", .string "Oslo")]
    let s : Store := ⟨[⟨alice, [("manager", .entity bob), ("profile", profile)], []⟩,
      ⟨bob, [("name", .string "Bob")], []⟩], [[], []]⟩
    let r : Request := ⟨alice, alice, alice, []⟩
    let e := (Expr.literal (.entity alice)).access
    ["profile", "city"] ≠ [] ∧ s.attributeAt alice ["profile", "city"] = .ok (.string "Oslo") ∧
      evaluate ⟨r, s⟩ (e ["profile", "city"]) = .ok (.string "Oslo") ∧
      evaluate ⟨r, s⟩ (e ["manager", "name"]) = .ok (.string "Bob") ∧
      s.attributeAt alice ["manager", "name"] = .error (.attributeNotFound alice ["manager", "name"])
      := by
  intro alice bob profile s r e
  have hcity : s.attributeAt alice ["profile", "city"] = .ok (.string "Oslo") := rfl
  have hagree := attributeAt_access s r alice ["profile", "city"] (by decide)
  exact ⟨by decide, hcity, ((hagree.1 _).1 hcity).1, rfl, rfl⟩

end Store

end AccessPolicy

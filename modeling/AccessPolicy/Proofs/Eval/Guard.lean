import AccessPolicy.Proofs.Eval.Blame

/-! # Guarded access to attributes

`Expr.guarded d` puts every access to an attribute behind a test that there is one, with the value
`d` where the test fails. The test holds exactly of what an access finds, and it fails exactly where
an access misses something (`Eval.testsAs_getAttr`). So a guarded expression misses nothing, and it
keeps the value that the expression has without the guards. -/

namespace AccessPolicy

/-- An entity or an attribute was looked for and is not there. -/
def EvalError.IsMissing : EvalError → Prop
  | .attributeNotFound _ _ | .entityNotFound _ => True
  | _ => False

theorem EvalError.RaisedBy.exists_getAttr {env : Env} {e : Expr} {x : EvalError}
    (h : x.RaisedBy env e) (hx : x.IsMissing) : ∃ d attr, e = .getAttr d attr := by
  cases x with
  | entityNotFound u =>
    obtain ⟨d, attr, he, -⟩ := h
    exact ⟨d, attr, he⟩
  | attributeNotFound attr on =>
    cases on with
    | record =>
      obtain ⟨d, -, he, -⟩ := h
      exact ⟨d, attr, he⟩
    | entity u =>
      obtain ⟨d, -, he, -⟩ := h
      exact ⟨d, attr, he⟩
  | _ => cases hx

namespace Eval

/-! ## A test and an access -/

/-- What a test for an attribute gives, by what an access to it gives. -/
inductive TestsAs : Result Value → Result Bool → Prop where
  | found (v) : TestsAs (.ok v) (.ok true)
  | missing {x} (h : x.IsMissing) : TestsAs (.error x) (.ok false)
  | refused {x} (h : ¬ x.IsMissing) : TestsAs (.error x) (.error x)

theorem testsAs_getAttr (s : Store) (v : Value) (attr : String) :
    TestsAs (getAttr s v attr) (hasAttr s v attr) := by
  cases v with
  | record fields =>
    rw [getAttr, hasAttr]
    cases Fields.find? fields attr with
    | none => exact .missing trivial
    | some w => exact .found w
  | entity u =>
    rw [getAttr, hasAttr]
    cases s.get? u with
    | none => exact .missing (x := .entityNotFound u) trivial
    | some e =>
      dsimp only [Option.bind_some]
      cases e.attr? attr with
      | none => exact .missing trivial
      | some w => exact .found w
  | _ => exact .refused id

/-- Where the first result is a value, the second is the same one. -/
def Refines {α : Type} (x y : Result α) : Prop := ∀ v, x = .ok v → y = .ok v

namespace Refines

variable {α β : Type}

theorem refl (x : Result α) : Refines x x := fun _ h => h

theorem bind {x y : Result α} {f g : α → Result β} (h : Refines x y)
    (hf : ∀ v, Refines (f v) (g v)) : Refines (x >>= f) (y >>= g) := by
  cases x with
  | error e => exact nofun
  | ok v =>
    rw [h v rfl]
    exact hf v

theorem bind_left {x y : Result α} {f : α → Result β} (h : Refines x y) :
    Refines (x >>= f) (y >>= f) := h.bind fun v => refl (f v)

theorem bind_right {x : Result α} {f g : α → Result β} (hf : ∀ v, Refines (f v) (g v)) :
    Refines (x >>= f) (x >>= g) := (refl x).bind hf

end Refines

/-- An access with a test in front, which gives `d` if the test fails. -/
def getAttrOr (d : Value) (s : Store) (v : Value) (attr : String) : Result Value := do
  let b ← hasAttr s v attr
  if b then getAttr s v attr else .ok d

theorem getAttrOr_refines (d : Value) (s : Store) (v : Value) (attr : String) :
    Refines (getAttr s v attr) (getAttrOr d s v attr) := by
  have htests := testsAs_getAttr s v attr
  rw [getAttrOr]
  generalize getAttr s v attr = r at htests ⊢
  generalize hasAttr s v attr = t at htests ⊢
  cases htests with
  | found w => exact .refl _
  | missing _ | refused _ => exact nofun

theorem not_isMissing_of_getAttrOr {d : Value} {s : Store} {v : Value} {attr : String}
    {x : EvalError} (h : getAttrOr d s v attr = .error x) : ¬ x.IsMissing := by
  have htests := testsAs_getAttr s v attr
  rw [getAttrOr] at h
  generalize getAttr s v attr = r at htests h
  generalize hasAttr s v attr = t at htests h
  cases htests with
  | found w | missing _ => cases h
  | refused hx =>
    cases h
    exact hx

/-! ## Expressions with other parts -/

end Eval

open Eval

namespace Expr

/-- The same form with other expressions directly inside it. -/
def mapParts (f : Expr → Expr) : Expr → Expr
  | .literal v => .literal v
  | .var x => .var x
  | .name n => .name n
  | .not e => .not (f e)
  | .neg e => .neg (f e)
  | .and lhs rhs => .and (f lhs) (f rhs)
  | .or lhs rhs => .or (f lhs) (f rhs)
  | .binary op lhs rhs => .binary op (f lhs) (f rhs)
  | .cond test thenE elseE => .cond (f test) (f thenE) (f elseE)
  | .getAttr e attr => .getAttr (f e) attr
  | .hasAttr e attr => .hasAttr (f e) attr
  | .like e pattern => .like (f e) pattern
  | .is e entityType => .is (f e) entityType
  | .isIn e entityType target => .isIn (f e) entityType (f target)
  | .set items => .set (items.map f)
  | .record fields => .record (fields.map fun p => (p.1, f p.2))
  | .method receiver called args => .method (f receiver) called (args.map f)
  | .call called args => .call called (args.map f)

theorem parts_mapParts (f : Expr → Expr) (e : Expr) : (e.mapParts f).parts = e.parts.map f := by
  cases e with
  | record fields => simp [mapParts, parts]
  | _ => rfl

theorem mapParts_eq_getAttr {f : Expr → Expr} {e d : Expr} {attr : String}
    (h : e.mapParts f = .getAttr d attr) : ∃ d', e = .getAttr d' attr := by
  cases e with
  | getAttr d' attr' =>
    cases h
    exact ⟨d', rfl⟩
  | _ => cases h

end Expr

variable {env : Env} {f : Expr → Expr}

theorem evaluateItems_map_refines {es : List Expr}
    (h : ∀ e ∈ es, Refines (evaluate env e) (evaluate env (f e))) :
    Refines (evaluateItems env es) (evaluateItems env (es.map f)) := by
  intro vs hvs
  rw [evaluateItems_eq_mapM] at hvs ⊢
  rw [List.mapM_map]
  exact mapM_eq_ok_of_forall h hvs

theorem evaluateFields_map_refines {fs : List (String × Expr)}
    (h : ∀ e ∈ fs.map Prod.snd, Refines (evaluate env e) (evaluate env (f e))) :
    Refines (evaluateFields env fs) (evaluateFields env (fs.map fun p => (p.1, f p.2))) := by
  induction fs with
  | nil => exact .refl _
  | cons p fs ih =>
    obtain ⟨hp, hfs⟩ := List.forall_mem_cons.1 h
    rw [List.map_cons, evaluateFields, evaluateFields]
    exact hp.bind fun v => (ih hfs).bind_left

/-- An expression keeps its value if the expressions directly inside it are replaced by others that
keep theirs. -/
theorem evaluate_mapParts_refines {e : Expr}
    (h : ∀ p ∈ e.parts, Refines (evaluate env p) (evaluate env (f p))) :
    Refines (evaluate env e) (evaluate env (e.mapParts f)) := by
  cases e with
  | literal _ | var _ | name _ => exact .refl _
  | not e | neg e | getAttr e _ | hasAttr e _ | like e _ | is e _ =>
    rw [Expr.mapParts, evaluate, evaluate]
    exact (h e (by simp [Expr.parts])).bind_left
  | and lhs rhs =>
    rw [Expr.mapParts, evaluate, evaluate]
    refine (h lhs (by simp [Expr.parts])).bind fun v => .bind_right fun b => ?_
    cases b with
    | false => exact .refl _
    | true => exact (h rhs (by simp [Expr.parts])).bind_left
  | or lhs rhs =>
    rw [Expr.mapParts, evaluate, evaluate]
    refine (h lhs (by simp [Expr.parts])).bind fun v => .bind_right fun b => ?_
    cases b with
    | true => exact .refl _
    | false => exact (h rhs (by simp [Expr.parts])).bind_left
  | binary op lhs rhs =>
    rw [Expr.mapParts, evaluate, evaluate]
    refine (h lhs (by simp [Expr.parts])).bind fun v => ?_
    exact (h rhs (by simp [Expr.parts])).bind_left
  | cond test thenE elseE =>
    rw [Expr.mapParts, evaluate, evaluate]
    refine (h test (by simp [Expr.parts])).bind fun v => .bind_right fun b => ?_
    cases b with
    | true => exact h thenE (by simp [Expr.parts])
    | false => exact h elseE (by simp [Expr.parts])
  | isIn e entityType target =>
    rw [Expr.mapParts, evaluate, evaluate]
    refine (h e (by simp [Expr.parts])).bind fun v => .bind_right fun u => ?_
    split
    · exact (h target (by simp [Expr.parts])).bind_left
    · exact .refl _
  | set items =>
    rw [Expr.mapParts, evaluate, evaluate]
    exact (evaluateItems_map_refines h).bind_left
  | record fields =>
    rw [Expr.mapParts, evaluate, evaluate]
    exact (evaluateFields_map_refines h).bind_left
  | method receiver name args =>
    obtain ⟨hreceiver, hargs⟩ := List.forall_mem_cons.1 h
    rw [Expr.mapParts, evaluate, evaluate]
    split
    · exact .refl _
    · rw [List.length_map]
      split
      · refine hreceiver.bind fun v => .bind_right fun items => ?_
        exact (evaluateItems_map_refines hargs).bind_left
      · exact .refl _
  | call name args =>
    rw [Expr.mapParts, evaluate, evaluate]
    exact .refl _

/-! ## Guards -/

namespace Expr

mutual

/-- The expression with every access to an attribute behind a test for it, the innermost access
first; where the test fails, `d` stands for the attribute. -/
def guarded (d : Value) : Expr → Expr
  | .literal v => .literal v
  | .var x => .var x
  | .name n => .name n
  | .not e => .not (guarded d e)
  | .neg e => .neg (guarded d e)
  | .and lhs rhs => .and (guarded d lhs) (guarded d rhs)
  | .or lhs rhs => .or (guarded d lhs) (guarded d rhs)
  | .binary op lhs rhs => .binary op (guarded d lhs) (guarded d rhs)
  | .cond test thenE elseE => .cond (guarded d test) (guarded d thenE) (guarded d elseE)
  | .getAttr e attr =>
    .cond (.hasAttr (guarded d e) attr) (.getAttr (guarded d e) attr) (.literal d)
  | .hasAttr e attr => .hasAttr (guarded d e) attr
  | .like e pattern => .like (guarded d e) pattern
  | .is e entityType => .is (guarded d e) entityType
  | .isIn e entityType target => .isIn (guarded d e) entityType (guarded d target)
  | .set items => .set (guardedItems d items)
  | .record fields => .record (guardedFields d fields)
  | .method receiver called args => .method (guarded d receiver) called (guardedItems d args)
  | .call called args => .call called (guardedItems d args)

def guardedItems (d : Value) : List Expr → List Expr
  | [] => []
  | e :: es => guarded d e :: guardedItems d es

def guardedFields (d : Value) : List (String × Expr) → List (String × Expr)
  | [] => []
  | (k, e) :: fs => (k, guarded d e) :: guardedFields d fs

end

variable {d : Value}

theorem guardedItems_eq (es : List Expr) : guardedItems d es = es.map (guarded d) := by
  induction es with
  | nil => rfl
  | cons e es ih => rw [guardedItems, ih, List.map_cons]

theorem guardedFields_eq (fs : List (String × Expr)) :
    guardedFields d fs = fs.map fun p => (p.1, guarded d p.2) := by
  induction fs with
  | nil => rfl
  | cons p fs ih => rw [guardedFields, ih, List.map_cons]

/-- Only accesses get another form. -/
theorem guarded_eq_mapParts {e : Expr} (h : ∀ e' attr, e ≠ .getAttr e' attr) :
    e.guarded d = e.mapParts (guarded d) := by
  cases e with
  | getAttr e attr => exact absurd rfl (h e attr)
  | set _ | method _ _ _ | call _ _ => rw [guarded, guardedItems_eq, mapParts]
  | record _ => rw [guarded, guardedFields_eq, mapParts]
  | _ => rw [guarded, mapParts]

theorem evaluate_guarded_getAttr (e : Expr) (attr : String) :
    evaluate env (guarded d (.getAttr e attr)) =
      evaluate env (e.guarded d) >>= fun v => getAttrOr d env.store v attr := by
  rw [guarded, evaluate, evaluate, evaluate, evaluate]
  cases evaluate env (e.guarded d) with
  | error x => rfl
  | ok v =>
    dsimp only [getAttrOr, bind, Except.bind]
    cases Eval.hasAttr env.store v attr with
    | error x => rfl
    | ok b => rfl

/-- A guarded expression has the value that the expression has. -/
theorem evaluate_guarded_refines (e : Expr) :
    Refines (evaluate env e) (evaluate env (e.guarded d)) := by
  induction e using induction_parts with
  | h e ih =>
    by_cases haccess : ∃ e' attr, e = .getAttr e' attr
    · obtain ⟨e, attr, rfl⟩ := haccess
      rw [evaluate_guarded_getAttr, evaluate]
      exact (ih e List.mem_cons_self).bind fun v => getAttrOr_refines d env.store v attr
    · rw [guarded_eq_mapParts fun e' attr he => haccess ⟨e', attr, he⟩]
      exact evaluate_mapParts_refines ih

/-- Without an access of its own, an expression only hands on what its parts miss. -/
theorem not_isMissing_of_guarded (e : Expr) :
    ∀ x, evaluate env (e.guarded d) = .error x → ¬ x.IsMissing := by
  induction e using induction_parts with
  | h e ih =>
    intro x hx
    by_cases haccess : ∃ e' attr, e = .getAttr e' attr
    · obtain ⟨e, attr, rfl⟩ := haccess
      rw [evaluate_guarded_getAttr] at hx
      cases hv : evaluate env (e.guarded d) with
      | error y =>
        rw [hv] at hx
        cases hx
        exact ih e List.mem_cons_self _ hv
      | ok v =>
        rw [hv] at hx
        exact not_isMissing_of_getAttrOr hx
    · rw [guarded_eq_mapParts fun e' attr he => haccess ⟨e', attr, he⟩] at hx
      obtain ⟨p, hp, hpart⟩ | hraised := evaluate_blames env _ x hx
      · rw [parts_mapParts] at hp
        obtain ⟨q, hq, rfl⟩ := List.mem_map.1 hp
        exact ih q hq x hpart
      · intro hmissing
        obtain ⟨e', attr, he⟩ := hraised.exists_getAttr hmissing
        obtain ⟨e'', he''⟩ := mapParts_eq_getAttr he
        exact haccess ⟨e'', attr, he''⟩

/-- **Guards are sound and complete.** With a guard in front of every access no expression fails
for an attribute or an entity that is not there, and an expression that has a value keeps it. -/
theorem evaluate_guarded (env : Env) (d : Value) (e : Expr) :
    (∀ attr on, evaluate env (e.guarded d) ≠ .error (.attributeNotFound attr on)) ∧
    (∀ u, evaluate env (e.guarded d) ≠ .error (.entityNotFound u)) ∧
    ∀ v, evaluate env e = .ok v → evaluate env (e.guarded d) = .ok v := by
  refine ⟨fun attr on h => ?_, fun u h => ?_, evaluate_guarded_refines e⟩
  · exact not_isMissing_of_guarded e _ h trivial
  · exact not_isMissing_of_guarded e _ h trivial

/-- The owner of a document is loaded and has an age but no manager. -/
theorem evaluate_guarded_owner :
    let owner : Uid := ⟨"User", "alice"⟩
    let request : Request := ⟨owner, ⟨"Action", "read"⟩, owner, [("owner", .entity owner)]⟩
    let env : Env := ⟨request, ⟨[⟨owner, [("age", .long 7)], []⟩], [[]]⟩⟩
    let age : Expr := .getAttr (.getAttr (.var .context) "owner") "age"
    let name : Expr := .getAttr (.getAttr (.getAttr (.var .context) "owner") "manager") "name"
    evaluate env age = .ok (.long 7) ∧ evaluate env (age.guarded (.long 0)) = .ok (.long 7) ∧
      evaluate env name = .error (.attributeNotFound "manager" (.entity owner)) ∧
      evaluate env (name.guarded (.long 0)) = .error (.typeMismatch .entityOrRecord .long) ∧
      ∀ u, evaluate env (name.guarded (.entity ⟨"User", "bob"⟩)) ≠ .error (.entityNotFound u) := by
  intro owner request env age name
  have hage : evaluate env age = .ok (.long 7) := rfl
  have hname : evaluate env name = .error (.attributeNotFound "manager" (.entity owner)) := rfl
  have hzero : evaluate env (name.guarded (.long 0)) =
      .error (.typeMismatch .entityOrRecord .long) := rfl
  exact ⟨hage, (evaluate_guarded env (.long 0) age).2.2 _ hage, hname, hzero,
    (evaluate_guarded env (.entity ⟨"User", "bob"⟩) name).2.1⟩

end Expr

end AccessPolicy

import AccessPolicy.Proofs.Eval.Within
import AccessPolicy.Proofs.Value.Order

/-! # What evaluation keeps

Evaluation makes booleans, longs in range, and sets and records in order; every other value it
takes from a literal, the request or an attribute. A property that holds of what is made and, at
all depths, of what is taken holds at all depths of the value of an expression
(`evaluate_everywhere`). -/

namespace AccessPolicy

variable {q : Value → Prop}

namespace Value

/-- The property holds of the values that evaluation makes. -/
structure HoldsOfMade (q : Value → Prop) : Prop where
  bool : ∀ b, q (.bool b)
  long : ∀ n, InLongRange n → q (.long n)
  set : ∀ items, Sorted.Increasing Value.compare items → q (.set items)
  record : ∀ fields, Fields.Increasing fields → q (.record fields)

theorem holdsOfMade_refs (R : Uid → Prop) : HoldsOfMade fun w => ∀ u, w = .entity u → R u where
  bool _ := nofun
  long _ _ := nofun
  set _ _ := nofun
  record _ _ := nofun

theorem holdsOfMade_ordered : HoldsOfMade Ordered where
  bool _ := trivial
  long _ h := h
  set _ h := h
  record _ h := h

theorem Everywhere.of_find? {fields : List (String × Value)} (h : (record fields).Everywhere q)
    {name : String} {v : Value} (hv : Fields.find? fields name = some v) : v.Everywhere q :=
  h.inside v (List.mem_map_of_mem (Fields.mem_of_find? hv))

namespace HoldsOfMade

theorem everywhere_bool (hq : HoldsOfMade q) (b : Bool) : (Value.bool b).Everywhere q :=
  .leaf (hq.bool b) rfl

theorem everywhere_ofItems (hq : HoldsOfMade q) {items : List Value}
    (h : ∀ v ∈ items, v.Everywhere q) : (ofItems items).Everywhere q := by
  refine .intro (hq.set _ (Sorted.increasing_ofList items)) fun v hv => ?_
  exact h v (Sorted.mem_ofList.mp hv)

theorem everywhere_ofFields (hq : HoldsOfMade q) {fields : List (String × Value)}
    (h : ∀ f ∈ fields, f.2.Everywhere q) : (ofFields fields).Everywhere q := by
  refine .intro (hq.record _ (Fields.increasing_ofList fields)) (List.forall_mem_map.mpr ?_)
  exact fun f hf => h f (Fields.mem_of_mem_ofList hf)

end HoldsOfMade

end Value

/-- The property holds at all depths of the values of the variables, and of the attributes of those
entities that a reference with the property leads to. -/
structure Env.Everywhere (q : Value → Prop) (env : Env) : Prop where
  vars : ∀ x, (Eval.var env.request x).Everywhere q
  attrs : ∀ u, q (.entity u) → ∀ e, env.store.get? u = some e →
    ∀ name v, e.attr? name = some v → v.Everywhere q

/-- Every literal of the expression has the property. -/
def Expr.EveryLiteral (p : Value → Prop) (e : Expr) : Prop :=
  e.Everywhere fun d => ∀ v, d = .literal v → p v

namespace Eval

/-- If the result is a value, it has the property. -/
def Gives {α : Type} (P : α → Prop) (x : Result α) : Prop := ∀ v, x = .ok v → P v

namespace Gives

variable {α β : Type} {P : α → Prop} {Q : β → Prop} {x : Result α} {f : α → Result β}

theorem ok {v : α} (h : P v) : Gives P (.ok v) := by
  intro w hw
  exact Except.ok.inj hw ▸ h

theorem error (e : EvalError) : Gives P (.error e) := by
  intro v hv
  cases hv

theorem bind (h : Gives P x) (hf : ∀ v, P v → Gives Q (f v)) : Gives Q (x >>= f) := by
  cases x with
  | error e => exact error e
  | ok v => exact hf v (h v rfl)

theorem bind_any (hf : ∀ v, Gives Q (f v)) : Gives Q (x >>= f) := by
  cases x with
  | error e => exact error e
  | ok v => exact hf v

/-- What goes on from a result matters at values with the property only. -/
theorem bind_congr {g : α → Result β} (h : Gives P x) (hfg : ∀ v, P v → f v = g v) :
    x >>= f = x >>= g := by
  cases x with
  | error e => rfl
  | ok v => exact hfg v (h v rfl)

end Gives

/-! ## Operators -/

theorem checked_everywhere (hq : Value.HoldsOfMade q) (op : ArithOp) (n : Int) :
    Gives (Value.Everywhere q) (checked op n) := by
  rw [checked]
  split
  · next h => exact .ok (.leaf (hq.long n h) rfl)
  · exact .error _

theorem binary_everywhere (hq : Value.HoldsOfMade q) (s : Store) (op : BinaryOp) (v w : Value) :
    Gives (Value.Everywhere q) (binary s op v w) := by
  cases op with
  | equal | notEqual => exact .ok (hq.everywhere_bool _)
  | order c => exact .bind_any fun m => .bind_any fun n => .ok (hq.everywhere_bool _)
  | arith a => exact .bind_any fun m => .bind_any fun n => checked_everywhere hq a _
  | within => exact .bind_any fun u => .bind_any fun b => .ok (hq.everywhere_bool b)

theorem applyMethod_everywhere (hq : Value.HoldsOfMade q) (m : Method) (items args : List Value) :
    Gives (Value.Everywhere q) (applyMethod m items args) := by
  unfold applyMethod
  split
  · exact .ok (hq.everywhere_bool _)
  · exact .bind_any fun others => .ok (hq.everywhere_bool _)
  · exact .bind_any fun others => .ok (hq.everywhere_bool _)
  · exact .ok (hq.everywhere_bool _)
  · exact .error _

theorem getAttr_everywhere {env : Env} (henv : env.Everywhere q) {v : Value} (hv : v.Everywhere q)
    (attr : String) : Gives (Value.Everywhere q) (getAttr env.store v attr) := by
  cases v with
  | bool _ | long _ | string _ | set _ => exact .error _
  | record fields =>
    simp only [getAttr]
    cases hw : Fields.find? fields attr with
    | none => exact .error _
    | some w => exact .ok (hv.of_find? hw)
  | entity u =>
    simp only [getAttr]
    cases he : env.store.get? u with
    | none => exact .error _
    | some e =>
      cases hw : e.attr? attr with
      | none => simpa only [hw] using .error _
      | some w =>
        simp only [hw]
        exact .ok (henv.attrs u hv.here e he attr w hw)

end Eval

open Eval

/-! ## Expressions -/

section Expressions

variable {env : Env}

theorem evaluateItems_everywhere {es : List Expr}
    (h : ∀ e ∈ es, Gives (Value.Everywhere q) (evaluate env e)) :
    Gives (fun vs => ∀ v ∈ vs, v.Everywhere q) (evaluateItems env es) := by
  induction es with
  | nil => exact .ok (List.forall_mem_nil _)
  | cons e es ih =>
    obtain ⟨he, hes⟩ := List.forall_mem_cons.mp h
    rw [evaluateItems]
    exact he.bind fun v hv => (ih hes).bind fun vs hvs => .ok (List.forall_mem_cons.mpr ⟨hv, hvs⟩)

theorem evaluateFields_everywhere {fs : List (String × Expr)}
    (h : ∀ e ∈ fs.map Prod.snd, Gives (Value.Everywhere q) (evaluate env e)) :
    Gives (fun vs => ∀ f ∈ vs, f.2.Everywhere q) (evaluateFields env fs) := by
  induction fs with
  | nil => exact .ok (List.forall_mem_nil _)
  | cons f fs ih =>
    obtain ⟨hf, hfs⟩ := List.forall_mem_cons.mp h
    rw [evaluateFields]
    exact hf.bind fun v hv => (ih hfs).bind fun vs hvs => .ok (List.forall_mem_cons.mpr ⟨hv, hvs⟩)

/-- **Evaluation keeps what its values have in common.** By induction on the expression: only
variables, literals and steps to an attribute hand on a value that was not made here. -/
theorem evaluate_everywhere (hq : Value.HoldsOfMade q) (henv : env.Everywhere q) {e : Expr}
    (he : e.EveryLiteral (Value.Everywhere q)) :
    Gives (Value.Everywhere q) (evaluate env e) := by
  induction he with
  | @intro e hlit _ ih =>
    cases e with
    | literal v =>
      rw [evaluate]
      exact .ok (hlit v rfl)
    | var x =>
      rw [evaluate]
      exact .ok (henv.vars x)
    | name _ | call _ _ =>
      rw [evaluate]
      exact .error _
    | not _ | like _ _ | is _ _ =>
      rw [evaluate]
      exact .bind_any fun v => .bind_any fun _ => .ok (hq.everywhere_bool _)
    | neg _ =>
      rw [evaluate]
      exact .bind_any fun v => .bind_any fun n => checked_everywhere hq _ _
    | and _ _ =>
      rw [evaluate]
      refine .bind_any fun v => .bind_any fun b => ?_
      split
      · exact .bind_any fun w => .bind_any fun c => .ok (hq.everywhere_bool _)
      · exact .ok (hq.everywhere_bool _)
    | or _ _ =>
      rw [evaluate]
      refine .bind_any fun v => .bind_any fun b => ?_
      split
      · exact .ok (hq.everywhere_bool _)
      · exact .bind_any fun w => .bind_any fun c => .ok (hq.everywhere_bool _)
    | binary op _ _ =>
      rw [evaluate]
      exact .bind_any fun v => .bind_any fun w => binary_everywhere hq env.store op v w
    | cond test thenE elseE =>
      rw [evaluate]
      refine .bind_any fun v => .bind_any fun b => ?_
      split
      · exact ih thenE (by simp [Expr.parts])
      · exact ih elseE (by simp [Expr.parts])
    | getAttr e attr =>
      rw [evaluate]
      exact (ih e List.mem_cons_self).bind fun v hv => getAttr_everywhere henv hv attr
    | hasAttr _ _ =>
      rw [evaluate]
      exact .bind_any fun v => .bind_any fun b => .ok (hq.everywhere_bool b)
    | isIn _ _ _ =>
      rw [evaluate]
      refine .bind_any fun v => .bind_any fun u => ?_
      split
      · exact .bind_any fun w => .bind_any fun b => .ok (hq.everywhere_bool b)
      · exact .ok (hq.everywhere_bool _)
    | set items =>
      rw [evaluate]
      exact (evaluateItems_everywhere ih).bind fun vs hvs => .ok (hq.everywhere_ofItems hvs)
    | record fields =>
      rw [evaluate]
      exact (evaluateFields_everywhere ih).bind fun vs hvs => .ok (hq.everywhere_ofFields hvs)
    | method _ _ _ =>
      rw [evaluate]
      split
      · exact .error _
      · split
        · refine .bind_any fun v => .bind_any fun items => .bind_any fun vs => ?_
          exact applyMethod_everywhere hq _ items vs
        · exact .error _

end Expressions

end AccessPolicy

import AccessPolicy.Eval.Basic
import AccessPolicy.Proofs.Sorted

/-! # Canonical values

In a canonical value every set is in increasing order, every record in increasing order of its
names, and every long a word of 64 bits, at all depths. Such a value is what its own expression
evaluates to. -/

namespace AccessPolicy

namespace Value

/-- The values directly inside a value. -/
def parts : Value → List Value
  | .set items => items
  | .record fields => fields.map Prod.snd
  | _ => []

/-- The property holds of the value and of all values inside it. -/
inductive Everywhere (p : Value → Prop) : Value → Prop where
  | intro {v} (h : p v) (hparts : ∀ w ∈ v.parts, Everywhere p w) : Everywhere p v

theorem Everywhere.here {p : Value → Prop} {v : Value} (h : Everywhere p v) : p v := by
  cases h with
  | intro h _ => exact h

theorem Everywhere.inside {p : Value → Prop} {v : Value} (h : Everywhere p v) :
    ∀ w ∈ v.parts, Everywhere p w := by
  cases h with
  | intro _ hparts => exact hparts

theorem Everywhere.leaf {p : Value → Prop} {v : Value} (h : p v) (hv : v.parts = []) :
    Everywhere p v := .intro h (by simp [hv])

/-- A set or record is in increasing order, and a long is in range. -/
def Ordered : Value → Prop
  | .long n => InLongRange n
  | .set items => Sorted.Increasing Value.compare items
  | .record fields => Fields.Increasing fields
  | _ => True

instance : DecidablePred Ordered := fun v =>
  match v with
  | .long n => inferInstanceAs (Decidable (InLongRange n))
  | .set items => inferInstanceAs (Decidable (items.Pairwise _))
  | .record fields => inferInstanceAs (Decidable ((fields.map Prod.fst).Pairwise _))
  | .bool _ | .string _ | .entity _ => .isTrue trivial

def Canonical (v : Value) : Prop := v.Everywhere Ordered

mutual

/-- How many sets and records are nested in the value. -/
def depth : Value → Nat
  | .bool _ => 0
  | .long _ => 0
  | .string _ => 0
  | .set items => itemsDepth items + 1
  | .record fields => fieldsDepth fields + 1
  | .entity _ => 0

def itemsDepth : List Value → Nat
  | [] => 0
  | v :: vs => max v.depth (itemsDepth vs)

def fieldsDepth : List (String × Value) → Nat
  | [] => 0
  | (_, v) :: fs => max v.depth (fieldsDepth fs)

end

mutual

/-- The expression that the text of the value is. -/
def expr : Value → Expr
  | .bool b => .literal (.bool b)
  | .long n => .literal (.long n)
  | .string s => .literal (.string s)
  | .set items => .set (itemExprs items)
  | .record fields => .record (fieldExprs fields)
  | .entity u => .literal (.entity u)

def itemExprs : List Value → List Expr
  | [] => []
  | v :: vs => v.expr :: itemExprs vs

def fieldExprs : List (String × Value) → List (String × Expr)
  | [] => []
  | (k, v) :: fs => (k, v.expr) :: fieldExprs fs

end

theorem itemExprs_eq (vs : List Value) : itemExprs vs = vs.map expr := by
  induction vs with
  | nil => rfl
  | cons v vs ih => rw [itemExprs, ih, List.map_cons]

theorem fieldExprs_eq (fs : List (String × Value)) :
    fieldExprs fs = fs.map fun f => (f.1, f.2.expr) := by
  induction fs with
  | nil => rfl
  | cons f fs ih => rw [fieldExprs, ih, List.map_cons]

end Value

/-! ## Evaluation -/

variable {env : Env}

theorem evaluateItems_of_forall {vs : List Value} (h : ∀ v ∈ vs, evaluate env v.expr = .ok v) :
    evaluateItems env (Value.itemExprs vs) = .ok vs := by
  induction vs with
  | nil => rfl
  | cons v vs ih =>
    obtain ⟨hv, hvs⟩ := List.forall_mem_cons.1 h
    rw [Value.itemExprs, evaluateItems, hv, ih hvs]
    rfl

theorem evaluateFields_of_forall {fs : List (String × Value)}
    (h : ∀ f ∈ fs, evaluate env f.2.expr = .ok f.2) :
    evaluateFields env (Value.fieldExprs fs) = .ok fs := by
  induction fs with
  | nil => rfl
  | cons f fs ih =>
    obtain ⟨hf, hfs⟩ := List.forall_mem_cons.1 h
    rw [Value.fieldExprs, evaluateFields, hf, ih hfs]
    rfl

/-- **The expression of a canonical value evaluates to it, in every environment.** -/
theorem Value.Canonical.evaluate_expr {v : Value} (h : v.Canonical) :
    evaluate env v.expr = .ok v := by
  induction h with
  | @intro v hordered _ ih =>
    cases v with
    | bool b => rfl
    | long n => rfl
    | string s => rfl
    | entity u => rfl
    | set items =>
      have hitems : ∀ w ∈ items, evaluate env w.expr = .ok w := ih
      rw [Value.expr, evaluate, evaluateItems_of_forall hitems]
      exact congrArg (Except.ok ∘ Value.set) (Sorted.ofList_of_increasing hordered)
    | record fields =>
      have hfields : ∀ f ∈ fields, evaluate env f.2.expr = .ok f.2 := fun f hf =>
        ih f.2 (List.mem_map_of_mem hf)
      rw [Value.expr, evaluate, evaluateFields_of_forall hfields]
      exact congrArg (Except.ok ∘ Value.record) (Fields.ofList_of_increasing hordered)

end AccessPolicy

import AccessPolicy.Proofs.Value.Canonical

/-! # References within a set of entities

`Value.Within R` says that every reference in a value, at any depth, is to an entity of `R`, and
`Expr.Within R` says so of the literals of an expression. -/

namespace AccessPolicy

variable {R : Uid → Prop}

theorem sizeOf_lt_of_mem_map_snd {α : Type} [SizeOf α] {fs : List (String × α)} {a : α}
    (h : a ∈ fs.map Prod.snd) : sizeOf a < sizeOf fs := by
  obtain ⟨⟨k, a⟩, hf, rfl⟩ := List.mem_map.mp h
  have hlt : sizeOf (k, a) < sizeOf fs := List.sizeOf_lt_of_mem hf
  rw [Prod.mk.sizeOf_spec] at hlt
  change sizeOf a < sizeOf fs
  omega

/-! ## Values -/

namespace Value

theorem sizeOf_lt_of_mem_parts {v w : Value} (h : w ∈ v.parts) : sizeOf w < sizeOf v := by
  cases v with
  | bool _ | long _ | string _ | entity _ => cases h
  | set items =>
    have hlt : sizeOf w < sizeOf items := List.sizeOf_lt_of_mem h
    rw [set.sizeOf_spec]
    omega
  | record fields =>
    have hlt : sizeOf w < sizeOf fields := sizeOf_lt_of_mem_map_snd h
    rw [record.sizeOf_spec]
    omega

theorem everywhere_of_forall {p : Value → Prop} (h : ∀ v, p v) (v : Value) : v.Everywhere p :=
  .intro (h v) fun w _ => everywhere_of_forall h w
termination_by sizeOf v
decreasing_by exact sizeOf_lt_of_mem_parts ‹_›

/-- Every reference in the value is to an entity of `R`. -/
def Within (R : Uid → Prop) (v : Value) : Prop := v.Everywhere fun w => ∀ u, w = .entity u → R u

theorem within_of_forall (h : ∀ u, R u) (v : Value) : v.Within R :=
  everywhere_of_forall (fun _ u _ => h u) v

theorem within_long (n : Int) : (long n).Within R := .intro nofun nofun

theorem within_entity_iff {u : Uid} : (entity u).Within R ↔ R u := by
  refine ⟨fun h => h.here u rfl, fun h => .intro ?_ nofun⟩
  rintro _ ⟨⟩
  exact h

theorem within_record_iff {fields : List (String × Value)} :
    (record fields).Within R ↔ ∀ f ∈ fields, f.2.Within R := by
  refine ⟨fun h f hf => h.inside f.2 (List.mem_map_of_mem hf), fun h => .intro nofun ?_⟩
  exact List.forall_mem_map.mpr h

end Value

/-! ## Expressions and requests -/

namespace Expr

/-- The expressions directly inside an expression. -/
def parts : Expr → List Expr
  | .literal _ | .var _ | .name _ => []
  | .not e | .neg e | .getAttr e _ | .hasAttr e _ | .like e _ | .is e _ => [e]
  | .and lhs rhs | .or lhs rhs | .binary _ lhs rhs => [lhs, rhs]
  | .cond test thenE elseE => [test, thenE, elseE]
  | .isIn e _ target => [e, target]
  | .set items => items
  | .record fields => fields.map Prod.snd
  | .method receiver _ args => receiver :: args
  | .call _ args => args

/-- The property holds of the expression and of all expressions inside it. -/
inductive Everywhere (p : Expr → Prop) : Expr → Prop where
  | intro {e} (h : p e) (hparts : ∀ d ∈ e.parts, Everywhere p d) : Everywhere p e

theorem sizeOf_lt_of_mem_parts {d e : Expr} (h : d ∈ e.parts) : sizeOf d < sizeOf e := by
  cases e with
  | literal _ | var _ | name _ => cases h
  | not _ | neg _ | getAttr _ _ | hasAttr _ _ | like _ _ | is _ _ =>
    obtain rfl := List.mem_singleton.mp h
    simp +arith
  | and _ _ | or _ _ | binary _ _ _ | isIn _ _ _ =>
    simp only [parts, List.mem_cons, List.not_mem_nil, or_false] at h
    rcases h with rfl | rfl <;> simp +arith
  | cond _ _ _ =>
    simp only [parts, List.mem_cons, List.not_mem_nil, or_false] at h
    rcases h with rfl | rfl | rfl <;> simp +arith
  | set items =>
    have hlt : sizeOf d < sizeOf items := List.sizeOf_lt_of_mem h
    simp only [set.sizeOf_spec]
    omega
  | record fields =>
    have hlt : sizeOf d < sizeOf fields := sizeOf_lt_of_mem_map_snd h
    simp only [record.sizeOf_spec]
    omega
  | method receiver name args =>
    rcases List.mem_cons.mp h with rfl | h
    · simp +arith
    · have hlt : sizeOf d < sizeOf args := List.sizeOf_lt_of_mem h
      simp only [method.sizeOf_spec]
      omega
  | call name args =>
    have hlt : sizeOf d < sizeOf args := List.sizeOf_lt_of_mem h
    simp only [call.sizeOf_spec]
    omega

theorem everywhere_of_forall {p : Expr → Prop} (h : ∀ e, p e) (e : Expr) : e.Everywhere p :=
  .intro (h e) fun d _ => everywhere_of_forall h d
termination_by sizeOf e
decreasing_by exact sizeOf_lt_of_mem_parts ‹_›

/-- What holds of an expression whenever it holds of its parts holds of all expressions. -/
theorem induction_parts {p : Expr → Prop} (h : ∀ e, (∀ d ∈ e.parts, p d) → p e) (e : Expr) :
    p e := h e fun d _ => induction_parts h d
termination_by sizeOf e
decreasing_by exact sizeOf_lt_of_mem_parts ‹_›

/-- Every reference in a literal of the expression is to an entity of `R`. -/
def Within (R : Uid → Prop) (e : Expr) : Prop :=
  e.Everywhere fun d => ∀ v, d = .literal v → v.Within R

theorem within_of_forall (h : ∀ u, R u) (e : Expr) : e.Within R :=
  everywhere_of_forall (fun _ v _ => v.within_of_forall h) e

end Expr

/-- The three entities of the request, and every reference in its context, are of `R`. -/
structure Request.Within (R : Uid → Prop) (r : Request) : Prop where
  principal : R r.principal
  action : R r.action
  resource : R r.resource
  context : ∀ f ∈ r.context, f.2.Within R

theorem Request.within_of_forall (h : ∀ u, R u) (r : Request) : r.Within R :=
  ⟨h _, h _, h _, fun f _ => f.2.within_of_forall h⟩

end AccessPolicy

import AccessPolicy.Proofs.Eval.Invariant
import AccessPolicy.Proofs.Parse.Standalone
import AccessPolicy.Proofs.Policy.Grammar

/-! # Literals of parsed expressions

The readers make literals of booleans, strings, references, and of integers that they have found in
range, with the sign that stands before them; sets and records stay expressions. So all literals of
what is read are canonical (`Reads.canonicalLiterals`). -/

namespace AccessPolicy

namespace Expr

/-- Every literal of the expression is canonical. -/
def CanonicalLiterals (e : Expr) : Prop := e.EveryLiteral Value.Canonical

namespace CanonicalLiterals

theorem literal {v : Value} (h : v.Ordered) (hv : v.parts = []) :
    (Expr.literal v).CanonicalLiterals := by
  refine .intro ?_ (List.forall_mem_nil _)
  rintro _ ⟨⟩
  exact .leaf h hv

theorem of_parts {e : Expr} (he : ∀ v, e ≠ .literal v) (h : ∀ d ∈ e.parts, d.CanonicalLiterals) :
    e.CanonicalLiterals :=
  .intro (fun v hv => absurd hv (he v)) h

end CanonicalLiterals

end Expr

namespace Parse

/-! ## Readers -/

def Tree.CanonicalLiterals : Tree → Prop
  | .expr e => e.CanonicalLiterals
  | .items es => ∀ e ∈ es, e.CanonicalLiterals
  | .fields fs => ∀ f ∈ fs, f.2.CanonicalLiterals

/-- The literals of what a reader hands back are canonical, if those of what it started from are. -/
def Reader.CanonicalLiterals (t : Tree) : Reader → Prop
  | .chainRest _ e | .steps e => e.CanonicalLiterals → t.CanonicalLiterals
  | _ => t.CanonicalLiterals

theorem Level.canonicalLiterals_inner {l : Level} {t : Tree} (h : l.inner.CanonicalLiterals t) :
    t.CanonicalLiterals := by
  cases l <;> exact h

theorem canonicalLiterals_join {l : Level} {k : Kind} {join : Expr → Expr → Expr}
    {lhs rhs : Expr} (h : l.join? k = some join) (hlhs : lhs.CanonicalLiterals)
    (hrhs : rhs.CanonicalLiterals) : (join lhs rhs).CanonicalLiterals := by
  unfold Level.join? at h
  have hparts : ∀ d ∈ [lhs, rhs], d.CanonicalLiterals :=
    List.forall_mem_cons.2 ⟨hlhs, List.forall_mem_singleton.2 hrhs⟩
  split at h <;> cases h <;> exact .of_parts nofun hparts

theorem canonicalLiterals_bareName (name : String) : (bareName name).CanonicalLiterals := by
  unfold bareName
  cases Var.ofName? name <;> exact .of_parts nofun nofun

/-- **All literals of what is read are canonical.** -/
theorem Reads.canonicalLiterals {r : Reader} {n : Nat} {ts rest : List Kind} {t : Tree}
    (h : Reads r n ts t rest) : r.CanonicalLiterals t := by
  induction h with
  | expr_if _ ih | expr_chain _ _ ih => exact ih
  | conditional _ _ _ ih₁ ih₂ ih₃ =>
    exact .of_parts nofun (List.forall_mem_cons.2 ⟨ih₁, List.forall_mem_cons.2
      ⟨ih₂, List.forall_mem_singleton.2 ih₃⟩⟩)
  | chain _ _ ih₁ ih₂ => exact ih₂ (Level.canonicalLiterals_inner ih₁)
  | chainRest_stop | steps_stop => exact id
  | chainRest_step hk _ _ ih₁ ih₂ =>
    intro he
    exact ih₂ (canonicalLiterals_join hk he (Level.canonicalLiterals_inner ih₁))
  | relation _ _ ih => exact ih
  | relation_binary _ _ _ ih₁ ih₂ | relation_isIn _ _ ih₁ ih₂ =>
    exact .of_parts nofun (List.forall_mem_cons.2 ⟨ih₁, List.forall_mem_singleton.2 ih₂⟩)
  | relation_has _ _ ih | relation_like _ _ ih | relation_is _ _ _ ih | unary_not _ ih
  | unary_neg _ _ ih => exact .of_parts nofun (List.forall_mem_singleton.2 ih)
  | @unary_long _ _ _ _ i hi _ ih =>
    -- The sign belongs to the literal, so it reaches the least long, which negates to none.
    have hrange : InLongRange (-i) := ⟨by omega, by omega⟩
    exact ih (.literal hrange rfl)
  | unary _ _ _ _ ih₁ ih₂ => exact ih₂ ih₁
  | steps_method _ _ ih₁ ih₂ =>
    intro he
    exact ih₂ (.of_parts nofun (List.forall_mem_cons.2 ⟨he, ih₁⟩))
  | steps_attr _ _ ih | steps_index _ _ ih =>
    intro he
    exact ih (.of_parts nofun (List.forall_mem_singleton.2 he))
  | items_nil | fields_nil => exact List.forall_mem_nil _
  | items_last _ _ ih => exact List.forall_mem_singleton.2 ih
  | items_cons _ _ _ _ ih₁ ih₂ => exact List.forall_mem_cons.2 ⟨ih₁, ih₂⟩
  | fields_last _ _ _ ih => exact List.forall_mem_singleton.2 ih
  | fields_cons _ _ _ _ ih₁ ih₂ => exact List.forall_mem_cons.2 ⟨ih₁, ih₂⟩
  | @primary_int _ _ i hi =>
    have hrange : InLongRange i := ⟨by omega, by omega⟩
    exact .literal hrange rfl
  | primary_string | primary_true | primary_false | primary_entity => exact .literal trivial rfl
  | primary_name => exact canonicalLiterals_bareName _
  | primary_paren _ ih | primary_if _ ih => exact ih
  | primary_set _ ih | primary_call _ _ ih => exact .of_parts nofun ih
  | primary_record _ ih => exact .of_parts nofun (List.forall_mem_map.2 ih)

end Parse

/-! ## Texts -/

theorem Expr.canonicalLiterals_of_parse {text : String} {e : Expr} (h : Expr.parse text = .ok e) :
    e.CanonicalLiterals := by
  rw [Expr.parse_eq] at h
  obtain ⟨ts, -, hts⟩ := Parse.run_eq_ok_iff.1 h
  have htakes : Parse.Reader.expr.Takes defaultNestingBound 0 ts.kinds (.expr e) [] :=
    Parse.standalone_eq_ok_iff.1 hts
  exact htakes.reads.canonicalLiterals

theorem Policy.canonicalLiterals_of_parseAll {bound : Nat} {text : String} {ps : List Policy}
    (h : Policy.parseAll bound text = .ok ps) :
    ∀ p ∈ ps, ∀ c ∈ p.conditions, c.body.CanonicalLiterals := by
  intro p hp c hc
  have hbody : c.body ∈ Policy.bodies ps :=
    List.mem_flatMap.2 ⟨p, hp, List.mem_map_of_mem hc⟩
  obtain ⟨ts, rest, hreads⟩ := Policy.reads_of_mem_bodies h c.body hbody
  exact hreads.canonicalLiterals

end AccessPolicy

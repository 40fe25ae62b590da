import AccessPolicy.Proofs.Json.Accepted
import AccessPolicy.Proofs.Parse.Literals
import AccessPolicy.Proofs.Store.Ancestry
import AccessPolicy.Proofs.Value.Contents

/-! # Values stay canonical

Decoded values, the literals of parsed expressions and the attributes of entities are canonical, and
evaluation makes canonical values of them. So the values that an evaluation compares are equal if
and only if they have the same contents (`Value.stays_canonical`). -/

namespace AccessPolicy

/-! ## Entities -/

/-- Entities put together from values with the property. -/
inductive Entity.BuiltFrom (p : Value → Prop) : Entity → Prop where
  | ofParts (uid : Uid) {attrs : List (String × Value)} (parents : List Uid)
      (h : ∀ f ∈ attrs, p f.2) : BuiltFrom p (.ofParts uid attrs parents)
  | withAttr {e : Entity} (name : String) {v : Value} (he : BuiltFrom p e) (hv : p v) :
    BuiltFrom p (e.withAttr name v)
  | withParent {e : Entity} (parent : Uid) (he : BuiltFrom p e) : BuiltFrom p (e.withParent parent)

theorem Value.Canonical.insert {fields : List (String × Value)} {v : Value} (name : String)
    (h : (record fields).Canonical) (hv : v.Canonical) :
    (record (Fields.insert name v fields)).Canonical := by
  have hfields : Fields.Increasing fields := h.here
  refine .intro hfields.insert (List.forall_mem_map.2 fun f hf => ?_)
  rcases Fields.eq_or_mem_of_mem_insert hf with rfl | hf
  · exact hv
  · exact h.inside f.2 (List.mem_map_of_mem hf)

theorem Entity.BuiltFrom.canonical {e : Entity} (h : e.BuiltFrom Value.Canonical) :
    (Value.record e.attrs).Canonical := by
  induction h with
  | ofParts _ _ h => exact Value.holdsOfMade_ordered.everywhere_ofFields h
  | withAttr name _ hv ih => exact ih.insert name hv
  | withParent _ _ ih => exact ih

/-! ## Environments -/

/-- The context and all attributes are canonical. -/
structure Env.Canonical (env : Env) : Prop where
  context : (Value.record env.request.context).Canonical
  attrs : ∀ e ∈ env.store.entities, ∀ name v, e.attr? name = some v → v.Canonical

theorem Env.Canonical.everywhere {env : Env} (h : env.Canonical) :
    env.Everywhere Value.Ordered where
  vars x := by
    cases x with
    | principal | action | resource => exact .leaf trivial rfl
    | context => exact h.context
  attrs u _ e he := h.attrs e (Store.mem_of_get? he).1

/-- **Values stay canonical.** Decoded values are canonical, and so are the literals of parsed
expressions and policies, and the attributes of entities built from canonical values. From canonical
literals, context and attributes evaluation gives canonical values. Canonical values are equal if
and only if they are alike; two sets, if they have the same elements, and two records, if they bind
each name to the same. -/
theorem Value.stays_canonical :
    (∀ j v, Decode.value j = .ok v → v.Canonical) ∧
    (∀ text e, Expr.parse text = .ok e → e.CanonicalLiterals) ∧
    (∀ bound text ps, Policy.parseAll bound text = .ok ps →
      ∀ p ∈ ps, ∀ c ∈ p.conditions, c.body.CanonicalLiterals) ∧
    (∀ e : Entity, e.BuiltFrom Value.Canonical →
      (record e.attrs).Canonical ∧ ∀ name v, e.attr? name = some v → v.Canonical) ∧
    (∀ env e v, env.Canonical → e.CanonicalLiterals → evaluate env e = .ok v → v.Canonical) ∧
    (∀ v w : Value, v.Canonical → w.Canonical → (v = w ↔ v.Alike w)) ∧
    (∀ xs ys, (set xs).Canonical → (set ys).Canonical →
      (set xs = set ys ↔ ∀ x, x ∈ xs ↔ x ∈ ys)) ∧
    ∀ fs gs, (record fs).Canonical → (record gs).Canonical →
      (record fs = record gs ↔ ∀ k, Fields.find? fs k = Fields.find? gs k) := by
  refine ⟨?_, ?_, ?_, ?_, ?_, ?_, ?_, ?_⟩
  · intro j v h
    exact Decode.canonical_of_value h
  · intro text e h
    exact Expr.canonicalLiterals_of_parse h
  · intro bound text ps h
    exact Policy.canonicalLiterals_of_parseAll h
  · intro e h
    exact ⟨h.canonical, fun name v hv => h.canonical.of_find? hv⟩
  · intro env e v henv he hv
    exact evaluate_everywhere holdsOfMade_ordered henv.everywhere he v hv
  · intro v w hv hw
    exact hv.eq_iff_alike hw
  · intro xs ys hxs hys
    exact hxs.set_eq_iff hys
  · intro fs gs hfs hgs
    exact hfs.record_eq_iff hgs

/-- A decoded attribute beside the set that an expression lists: both are one element of a set. -/
theorem Value.stays_canonical_tags :
    let ann : Uid := ⟨"User", "ann"⟩
    let number (n : Int) : Json := .number (.integer n)
    let items : List Value := [.long 1, .long 2]
    let tags : Value := .set items
    let owner : Entity := (Entity.ofParts ann [] []).withAttr "tags" tags
    let env : Env := ⟨⟨ann, ann, ann, []⟩, ⟨[owner], [[]]⟩⟩
    let e : Expr := .set [.getAttr (.var .principal) "tags",
      .set [.literal (.long 2), .literal (.long 1)]]
    let policy := "permit(principal, action, resource) when \x7b[2, 1]\x7d;"
    (Decode.value (.array [number 2, number 1, number 2]) = .ok tags ∧ tags.Canonical) ∧
    (Expr.parse "[principal.tags, [2, 1]]" = .ok e ∧ e.CanonicalLiterals) ∧
    (∃ ps, Policy.parseAll 9 policy = .ok ps ∧
      ∀ p ∈ ps, ∀ c ∈ p.conditions, c.body.CanonicalLiterals) ∧
    (owner.BuiltFrom Value.Canonical ∧ (record owner.attrs).Canonical) ∧
    (env.Canonical ∧ evaluate env e = .ok (.set [tags]) ∧ (set [tags]).Canonical) ∧
    ¬ tags.Alike (.set [tags]) ∧ (¬ ∀ x, x ∈ items ↔ x ∈ [tags]) ∧
      ¬ ∀ k, Fields.find? owner.attrs k = Fields.find? [] k := by
  intro ann number items tags owner env e policy
  obtain ⟨hdecode, hparse, hpolicies, hentity, heval, halike, hset, hrecord⟩ :=
    Value.stays_canonical
  have htags : Decode.value (.array [number 2, number 1, number 2]) = .ok tags := rfl
  have htagsCanonical := hdecode _ _ htags
  have he : Expr.parse "[principal.tags, [2, 1]]" = .ok e := by with_unfolding_all rfl
  have heCanonical := hparse _ _ he
  have hok : (Policy.parseAll 9 policy).isOk = true := by decide +kernel
  obtain ⟨ps, hps⟩ := Parse.exists_eq_ok hok
  have howner : owner.BuiltFrom Value.Canonical :=
    .withAttr "tags" (.ofParts ann [] (List.forall_mem_nil _)) htagsCanonical
  obtain ⟨hattrs, hattr⟩ := hentity owner howner
  have hempty : (record []).Canonical := .leaf .nil rfl
  have henv : env.Canonical := ⟨hempty, List.forall_mem_singleton.2 hattr⟩
  have hv : evaluate env e = .ok (.set [tags]) := rfl
  have hvCanonical := heval env e _ henv heCanonical hv
  have hne : tags ≠ .set [tags] := by decide
  have hneEmpty : record owner.attrs ≠ record [] := by decide
  exact ⟨⟨htags, htagsCanonical⟩, ⟨he, heCanonical⟩, ⟨ps, hps, hpolicies _ _ _ hps⟩,
    ⟨howner, hattrs⟩, ⟨henv, hv, hvCanonical⟩,
    mt (halike _ _ htagsCanonical hvCanonical).2 hne,
    mt (hset _ _ htagsCanonical hvCanonical).2 hne,
    mt (hrecord _ _ hattrs hempty).2 hneEmpty⟩

end AccessPolicy

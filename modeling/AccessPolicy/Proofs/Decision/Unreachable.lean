import AccessPolicy.Proofs.Eval.Agree
import AccessPolicy.Proofs.Store.Ancestry

/-! # Attributes out of reach

A decision can come upon an entity in four ways: in the request, in its context, as a literal of a
condition, or in an attribute of an entity that it came upon before. A set `R` that is closed under
these holds all whose attributes matter: records that differ in the attributes of other entities
give the same response (`authorize_unreachable`). Ancestry is not limited to `R`, since the
parents agree everywhere. -/

namespace AccessPolicy

variable {R : Uid → Prop}

/-- Records of one entity, with the same parents, and with the same attributes if it is of `R`. -/
structure Entity.AgreeOn (R : Uid → Prop) (e e' : Entity) : Prop where
  uid : e.uid = e'.uid
  parents : e.parents = e'.parents
  attrs : R e.uid → e.attr? = e'.attr?

/-- `R` holds the entities of the request, those that its context and the literals of the
conditions refer to, and with each record those that its attributes refer to. -/
structure Covers (R : Uid → Prop) (records : List Entity) (ps : PolicySet) (r : Request) :
    Prop where
  request : r.Within R
  literals : ∀ p ∈ ps.policies, p.Within R
  attributes : ∀ e ∈ records, R e.uid → ∀ name v, e.attr? name = some v → v.Within R

namespace Store

variable {records other : List Entity}

theorem map_uid_eq (h : List.Forall₂ (Entity.AgreeOn R) records other) :
    records.map Entity.uid = other.map Entity.uid := by
  induction h with
  | nil => rfl
  | cons he _ ih => rw [List.map_cons, List.map_cons, he.uid, ih]

theorem map_parents_eq (h : List.Forall₂ (Entity.AgreeOn R) records other) :
    records.map Entity.parents = other.map Entity.parents := by
  induction h with
  | nil => rfl
  | cons he _ ih => rw [List.map_cons, List.map_cons, he.parents, ih]

/-! ## Ancestry -/

/-- A position depends on the references only. -/
theorem indexIn?_eq_findIdx? (records : List Entity) (u : Uid) :
    indexIn? records u = (records.map Entity.uid).findIdx? fun v => decide (v = u) := by
  rw [indexIn?, List.findIdx?_map]
  rfl

theorem edges_ofRecords (records : List Entity) :
    (ofRecords records).edges =
      (records.map Entity.parents).map fun parents => parents.filterMap (indexIn? records) := by
  rw [ofRecords, List.map_map]
  rfl

/-- Ancestry depends on the references and the parents only. -/
theorem isAncestor_congr (huid : records.map Entity.uid = other.map Entity.uid)
    (hparents : records.map Entity.parents = other.map Entity.parents) :
    (ofRecords records).isAncestor = (ofRecords other).isAncestor := by
  have hindex : indexIn? records = indexIn? other :=
    funext fun u => by rw [indexIn?_eq_findIdx?, huid, ← indexIn?_eq_findIdx?]
  have hedges : (ofRecords records).edges = (ofRecords other).edges := by
    rw [edges_ofRecords, edges_ofRecords, hindex, hparents]
  have hclosure : (ofRecords records).closure = (ofRecords other).closure :=
    funext fun i => by rw [closure, closure, hedges]
  funext c u
  rw [isAncestor, isAncestor, index?, index?, index?, index?, hclosure]
  simp only [ofRecords, hindex]

/-! ## Attributes -/

theorem attrs_eq_of_agreeOn (h : List.Forall₂ (Entity.AgreeOn R) records other) {u : Uid}
    (hu : R u) :
    ((ofRecords records).get? u).map Entity.attr? =
      ((ofRecords other).get? u).map Entity.attr? := by
  simp only [get?, ofRecords]
  induction h with
  | nil => rfl
  | @cons e e' es es' he _ ih =>
    by_cases heu : e.uid = u
    · have heu' : e'.uid = u := he.uid.symm.trans heu
      rw [List.find?_cons_of_pos (by simpa using heu), List.find?_cons_of_pos (by simpa using heu'),
        Option.map_some, Option.map_some, he.attrs (heu ▸ hu)]
    · have heu' : ¬ e'.uid = u := fun h => heu (he.uid.trans h)
      rw [List.find?_cons_of_neg (by simpa using heu), List.find?_cons_of_neg (by simpa using heu'),
        ih]

theorem agreeWithin_of_agreeOn (h : List.Forall₂ (Entity.AgreeOn R) records other)
    (hclosed : ∀ e ∈ records, R e.uid → ∀ name v, e.attr? name = some v → v.Within R) :
    (ofRecords records).AgreeWithin R (ofRecords other) where
  isAncestor := isAncestor_congr (map_uid_eq h) (map_parents_eq h)
  attrs u hu := attrs_eq_of_agreeOn h hu
  closed u hu e he := by
    obtain ⟨hmem, rfl⟩ := mem_of_get? he
    exact hclosed e hmem hu

end Store

/-- **Attributes out of reach do not matter.** Let `R` cover what the policies and the request can
come upon in loaded records. Records with the same references and parents in the same order, and
with the same attributes for the entities of `R`, load too, and the response is the same. -/
theorem Authorizer.authorize_unreachable {records other : List Entity} {s : Store} {ps : PolicySet}
    {r : Request} (hload : Store.load records = .ok s) (hcovers : Covers R records ps r)
    (hagree : List.Forall₂ (Entity.AgreeOn R) records other) :
    ∃ s', Store.load other = .ok s' ∧
      ∀ a b : Authorizer, a.authorize ps s r = b.authorize ps s' r := by
  obtain ⟨hd, rfl⟩ := Store.load_eq_ok_iff.mp hload
  refine ⟨_, Store.load_eq_ofRecords (Store.map_uid_eq hagree ▸ hd), fun a b => ?_⟩
  exact a.authorize_eq_of_agreeWithin b hcovers.request
    (Store.agreeWithin_of_agreeOn hagree hcovers.attributes) hcovers.literals

/-- The level of the principal's manager decides, and that of an entity out of reach does not. -/
theorem Authorizer.authorize_unreachable_manager :
    let ann : Uid := ⟨"User", "ann"⟩
    let bob : Uid := ⟨"User", "bob"⟩
    let eve : Uid := ⟨"User", "eve"⟩
    let records (level : Int) : List Entity :=
      [⟨ann, [("manager", .entity bob)], [eve]⟩, ⟨bob, [("level", .long 4)], []⟩,
        ⟨eve, [("level", .long level)], [bob]⟩]
    let body : Expr := .binary (.order .greater)
      (.getAttr (.getAttr (.var .principal) "manager") "level") (.literal (.long 3))
    let r : Request := ⟨ann, ⟨"Action", "read"⟩, ⟨"Doc", "plan"⟩, []⟩
    ∃ (ps : PolicySet) (s s' : Store),
      ps.policies = [⟨.ofIndex 0, .permit, {}, [⟨.when, body⟩], {}⟩] ∧
      Store.load (records 1) = .ok s ∧ s.attributeAt eve ["level"] = .ok (.long 1) ∧
      Store.load (records 9) = .ok s' ∧ s'.attributeAt eve ["level"] = .ok (.long 9) ∧
      ∀ a b : Authorizer, (a.authorize ps s r).decision = .allow ∧
        a.authorize ps s r = b.authorize ps s' r := by
  intro ann bob eve records body r
  let R (u : Uid) : Prop := u ∈ [ann, bob, r.action, r.resource]
  have hleaf {e : Expr} (h : ∀ v, e = .literal v → v.Within R) (he : e.parts = []) : e.Within R :=
    .intro h (by simp [he])
  have hbody : body.Within R := by
    have hthree : (Expr.literal (.long 3)).Within R := by
      refine hleaf (fun v hv => ?_) rfl
      cases hv
      exact Value.within_long 3
    have hvar : (Expr.var .principal).Within R := hleaf nofun rfl
    have hmanager : (Expr.getAttr (.var .principal) "manager").Within R :=
      .intro nofun (List.forall_mem_singleton.mpr hvar)
    have hlevel : (Expr.getAttr (.getAttr (.var .principal) "manager") "level").Within R :=
      .intro nofun (List.forall_mem_singleton.mpr hmanager)
    exact .intro nofun (List.forall_mem_cons.mpr ⟨hlevel, List.forall_mem_singleton.mpr hthree⟩)
  let ps : PolicySet := ⟨[⟨.ofIndex 0, .permit, {}, [⟨.when, body⟩], {}⟩],
    PolicySet.unambiguous_of_none (by decide) (by decide)⟩
  have hcovers : Covers R (records 1) ps r := by
    refine ⟨⟨by decide, by decide, by decide, nofun⟩, ?_, ?_⟩
    · exact List.forall_mem_singleton.mpr (List.forall_mem_singleton.mpr hbody)
    · intro e he hR name v hv
      have hmem : (name, v) ∈ e.attrs := Fields.mem_of_find? hv
      simp only [records, List.mem_cons, List.not_mem_nil, or_false] at he
      rcases he with rfl | rfl | rfl
      · cases List.mem_singleton.mp hmem
        exact Value.within_entity_iff.mpr (by decide)
      · cases List.mem_singleton.mp hmem
        exact Value.within_long 4
      · exact absurd hR (by decide)
  have hagree : List.Forall₂ (Entity.AgreeOn R) (records 1) (records 9) :=
    .cons ⟨rfl, rfl, fun _ => rfl⟩ (.cons ⟨rfl, rfl, fun _ => rfl⟩
      (.cons ⟨rfl, rfl, fun h => absurd h (by decide)⟩ .nil))
  have hload : Store.load (records 1) = .ok (.ofRecords (records 1)) :=
    Store.load_eq_ofRecords (by decide)
  obtain ⟨s', hload', hsame⟩ := authorize_unreachable hload hcovers hagree
  refine ⟨ps, _, s', rfl, hload, rfl, hload', ?_, fun a b => ⟨?_, hsame a b⟩⟩
  · cases hload'
    rfl
  · rw [authorize_eq]
    rfl

end AccessPolicy

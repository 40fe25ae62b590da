import AccessPolicy.Proofs.Sorted
import AccessPolicy.Proofs.Store.Reach
import AccessPolicy.Proofs.Value.Order
import Mathlib.Data.List.Nodup

/-! # Ancestry in a loaded store

The search runs over positions; the relation of interest is between references.
`LoadedParent` is one declared parent edge between two loaded entities, and a
path of such edges is what a store calls ancestry (`isAncestor_iff`). Positions
and references correspond because references are distinct: `uidAt?` names the
one at a position, and an edge of the graph is an edge of the records
(`edge_iff`). -/

namespace AccessPolicy

namespace Store

/-- One of the records has this reference. -/
def Loaded (records : List Entity) (u : Uid) : Prop := ∃ e ∈ records, e.uid = u

instance (records : List Entity) (u : Uid) : Decidable (Loaded records u) :=
  inferInstanceAs (Decidable (∃ e ∈ records, e.uid = u))

/-- `v` is a declared parent of `u`, and both are loaded. -/
def LoadedParent (records : List Entity) (u v : Uid) : Prop :=
  (∃ e ∈ records, e.uid = u ∧ v ∈ e.parents) ∧ Loaded records v

instance (records : List Entity) (u v : Uid) : Decidable (LoadedParent records u v) :=
  inferInstanceAs (Decidable ((∃ e ∈ records, e.uid = u ∧ v ∈ e.parents) ∧ Loaded records v))

/-- The store of records whose references are distinct. -/
def ofRecords (records : List Entity) : Store :=
  ⟨records, records.map fun e => e.parents.filterMap (indexIn? records)⟩

theorem load_eq_ofRecords {records : List Entity} (h : (records.map Entity.uid).Nodup) :
    load records = .ok (ofRecords records) := by
  have hnone : firstRepeat? [] (records.map Entity.uid) = none :=
    firstRepeat?_eq_none_iff.mpr ⟨h, fun _ _ => List.not_mem_nil⟩
  rw [load, hnone, ofRecords]

theorem load_eq_ok_iff {records : List Entity} {s : Store} :
    load records = .ok s ↔ (records.map Entity.uid).Nodup ∧ s = ofRecords records := by
  constructor
  · intro h
    cases hr : firstRepeat? [] (records.map Entity.uid) with
    | some u =>
      rw [load, hr] at h
      cases h
    | none =>
      have hd := (firstRepeat?_eq_none_iff.mp hr).1
      exact ⟨hd, Except.ok.inj (h.symm.trans (load_eq_ofRecords hd))⟩
  · rintro ⟨hd, rfl⟩
    exact load_eq_ofRecords hd

theorem mem_of_get? {s : Store} {u : Uid} {e : Entity} (h : s.get? u = some e) :
    e ∈ s.entities ∧ e.uid = u := by
  rw [get?] at h
  have hu := List.find?_some h
  exact ⟨List.mem_of_find?_eq_some h, of_decide_eq_true hu⟩

theorem get?_eq_some_iff {records : List Entity} (hd : (records.map Entity.uid).Nodup) {u : Uid}
    {e : Entity} : (ofRecords records).get? u = some e ↔ e ∈ records ∧ e.uid = u := by
  refine ⟨mem_of_get?, fun ⟨he, hu⟩ => ?_⟩
  cases hf : (ofRecords records).get? u with
  | some f =>
    obtain ⟨hf, hfu⟩ := mem_of_get? hf
    rw [List.inj_on_of_nodup_map hd hf he (hfu.trans hu.symm)]
  | none =>
    rw [get?] at hf
    have hne := List.find?_eq_none.mp hf e he
    simp [hu] at hne

/-! ## Positions and references -/

/-- The reference at a position. -/
def uidAt? (records : List Entity) (i : Nat) : Option Uid := (records.map Entity.uid)[i]?

variable {records : List Entity} {i j : Nat} {u v c : Uid}

theorem uid_entities (records : List Entity) (i : Nat) :
    (ofRecords records).entities[i]?.map Entity.uid = uidAt? records i := List.getElem?_map.symm

theorem uidAt?_eq_some_iff :
    uidAt? records i = some u ↔ ∃ e, records[i]? = some e ∧ e.uid = u := by
  rw [uidAt?, List.getElem?_map, Option.map_eq_some_iff]

theorem exists_uidAt?_iff : (∃ i, uidAt? records i = some u) ↔ Loaded records u := by
  simp only [uidAt?, ← List.mem_iff_getElem?, List.mem_map, Loaded]

theorem uidAt?_inj (hd : (records.map Entity.uid).Nodup) (hi : uidAt? records i = some u)
    (hj : uidAt? records j = some u) : i = j := by
  obtain ⟨hlt, -⟩ := List.getElem?_eq_some_iff.mp hi
  exact (List.getElem?_inj hlt hd).mp (hi.trans hj.symm)

theorem indexIn?_eq_some_iff (hd : (records.map Entity.uid).Nodup) :
    indexIn? records u = some i ↔ uidAt? records i = some u := by
  have hfound : ∀ {k}, indexIn? records u = some k → uidAt? records k = some u := by
    intro k hk
    obtain ⟨hlt, hu, -⟩ := List.findIdx?_eq_some_iff_getElem.mp hk
    exact uidAt?_eq_some_iff.mpr ⟨records[k], List.getElem?_eq_getElem hlt, of_decide_eq_true hu⟩
  refine ⟨hfound, fun hi => ?_⟩
  cases hk : indexIn? records u with
  | some k => rw [uidAt?_inj hd hi (hfound hk)]
  | none =>
    obtain ⟨e, he, hu⟩ := uidAt?_eq_some_iff.mp hi
    have hne := List.findIdx?_eq_none_iff.mp hk e (List.mem_of_getElem? he)
    exact absurd hu (of_decide_eq_false hne)

theorem mem_edges_iff :
    j ∈ (ofRecords records).edges.getD i [] ↔
      ∃ e, records[i]? = some e ∧ ∃ v ∈ e.parents, indexIn? records v = some j := by
  rw [ofRecords, List.getD_eq_getElem?_getD, List.getElem?_map]
  cases records[i]? with
  | none => simp
  | some e => simp

theorem edge_iff (hd : (records.map Entity.uid).Nodup) :
    Edge (ofRecords records).edges i j ↔
      ∃ u v, uidAt? records i = some u ∧ uidAt? records j = some v ∧ LoadedParent records u v := by
  rw [Edge, mem_edges_iff]
  constructor
  · rintro ⟨⟨e, he, v, hv, hj⟩, -⟩
    have hj := (indexIn?_eq_some_iff hd).mp hj
    have hi := uidAt?_eq_some_iff.mpr ⟨e, he, rfl⟩
    exact ⟨e.uid, v, hi, hj, ⟨e, List.mem_of_getElem? he, rfl, hv⟩, exists_uidAt?_iff.mp ⟨j, hj⟩⟩
  · rintro ⟨u, v, hi, hj, ⟨e, he, rfl, hv⟩, -⟩
    obtain ⟨k, hk⟩ := List.mem_iff_getElem?.mp he
    have hki : k = i := uidAt?_inj hd (uidAt?_eq_some_iff.mpr ⟨e, hk, rfl⟩) hi
    obtain ⟨hlt, -⟩ := List.getElem?_eq_some_iff.mp hj
    refine ⟨⟨e, hki ▸ hk, v, hv, (indexIn?_eq_some_iff hd).mpr hj⟩, ?_⟩
    simpa [ofRecords] using hlt

/-- Paths between positions are paths between the references at them. -/
theorem path_iff (hd : (records.map Entity.uid).Nodup) (hi : uidAt? records i = some u)
    (hj : uidAt? records j = some v) :
    Relation.TransGen (Edge (ofRecords records).edges) i j ↔
      Relation.TransGen (LoadedParent records) u v := by
  constructor
  · intro h
    induction h generalizing v with
    | single h =>
      obtain ⟨u', v', hi', hj', hp⟩ := (edge_iff hd).mp h
      cases hi.symm.trans hi'
      cases hj.symm.trans hj'
      exact .single hp
    | tail _ h ih =>
      obtain ⟨w, v', hw, hj', hp⟩ := (edge_iff hd).mp h
      cases hj.symm.trans hj'
      exact .tail (ih hw) hp
  · intro h
    induction h generalizing j with
    | single h => exact .single ((edge_iff hd).mpr ⟨u, _, hi, hj, h⟩)
    | @tail w _ hpath h ih =>
      obtain ⟨e, he, hw, -⟩ := h.1
      obtain ⟨k, hk⟩ := exists_uidAt?_iff.mpr ⟨e, he, hw⟩
      exact .tail (ih hk) ((edge_iff hd).mpr ⟨w, _, hk, hj, h⟩)

/-- A path of loaded entities starts and ends at loaded ones. -/
theorem loaded_of_path (h : Relation.TransGen (LoadedParent records) u v) :
    Loaded records u ∧ Loaded records v := by
  induction h with
  | single h =>
    obtain ⟨⟨e, he, hu, -⟩, hv⟩ := h
    exact ⟨⟨e, he, hu⟩, hv⟩
  | tail _ h ih => exact ⟨ih.1, h.2⟩

/-! ## Ancestry -/

theorem index?_eq_some_iff (hd : (records.map Entity.uid).Nodup) :
    (ofRecords records).index? u = some i ↔ uidAt? records i = some u :=
  indexIn?_eq_some_iff hd

theorem index?_eq_none_iff (hd : (records.map Entity.uid).Nodup) :
    (ofRecords records).index? u = none ↔ ¬ Loaded records u := by
  rw [← exists_uidAt?_iff, Option.eq_none_iff_forall_ne_some, not_exists]
  exact forall_congr' fun i => not_congr (index?_eq_some_iff hd)

theorem isAncestor_iff (hd : (records.map Entity.uid).Nodup) :
    (ofRecords records).isAncestor c u = true ↔
      c = u ∨ Relation.TransGen (LoadedParent records) u c := by
  rw [isAncestor, Bool.or_eq_true, decide_eq_true_eq]
  refine or_congr_right ?_
  cases hi : (ofRecords records).index? u with
  | none =>
    have hu := (index?_eq_none_iff hd).mp hi
    simpa using fun h => hu (loaded_of_path h).1
  | some i =>
    cases hj : (ofRecords records).index? c with
    | none =>
      have hc := (index?_eq_none_iff hd).mp hj
      simpa using fun h => hc (loaded_of_path h).2
    | some j =>
      have hi := (index?_eq_some_iff hd).mp hi
      have hj := (index?_eq_some_iff hd).mp hj
      simp only [decide_eq_true_eq, mem_closure_iff, path_iff hd hi hj]

theorem mem_ancestors_iff (hd : (records.map Entity.uid).Nodup) :
    c ∈ (ofRecords records).ancestors u ↔
      Loaded records c ∧ c ≠ u ∧ (ofRecords records).isAncestor c u = true := by
  rw [isAncestor_iff hd, ancestors]
  cases hi : (ofRecords records).index? u with
  | none =>
    have hu := (index?_eq_none_iff hd).mp hi
    simp only [List.not_mem_nil, false_iff, not_and]
    rintro - hne (rfl | h)
    · exact hne rfl
    · exact hu (loaded_of_path h).1
  | some i =>
    have hi := (index?_eq_some_iff hd).mp hi
    simp only [Sorted.mem_sort, List.mem_filterMap, List.mem_filter, uid_entities,
      mem_closure_iff, bne_iff_ne]
    constructor
    · rintro ⟨j, ⟨hpath, hne⟩, hj⟩
      refine ⟨exists_uidAt?_iff.mp ⟨j, hj⟩, ?_, .inr ((path_iff hd hi hj).mp hpath)⟩
      rintro rfl
      exact hne (uidAt?_inj hd hj hi)
    · rintro ⟨hc, hne, h⟩
      obtain ⟨j, hj⟩ := exists_uidAt?_iff.mpr hc
      refine ⟨j, ⟨(path_iff hd hi hj).mpr (h.resolve_left hne), ?_⟩, hj⟩
      rintro rfl
      exact hne (Option.some.inj (hj.symm.trans hi))

/-- The positions that the search visits are distinct, and distinct positions have distinct
references. -/
theorem increasing_ancestors (hd : (records.map Entity.uid).Nodup) (u : Uid) :
    Sorted.Increasing Uid.compare ((ofRecords records).ancestors u) := by
  rw [ancestors]
  cases (ofRecords records).index? u with
  | none => exact .nil
  | some i =>
    have hvisited : (((ofRecords records).closure i).filter (· != i)).Nodup :=
      (nodup_closure _ i).filter _
    refine Sorted.increasing_sort (hvisited.filterMap fun j k v hj hk => ?_)
    rw [uid_entities] at hj hk
    exact uidAt?_inj hd hj hk

/-- **Ancestry is reachability.** Records with distinct references load, and in
the store `c` is an ancestor of `u` when it is `u`, or when a path of declared
parent edges between loaded entities leads from `u` to `c`. The listed ancestors
of `u` are those other than `u`, in strictly increasing order, and none if `u`
is not loaded. -/
theorem load_ancestry (records : List Entity) (hd : (records.map Entity.uid).Nodup) :
    ∃ s, load records = .ok s ∧
      (∀ c u, s.isAncestor c u = true ↔
        c = u ∨ Relation.TransGen (LoadedParent records) u c) ∧
      (∀ u, Sorted.Increasing Uid.compare (s.ancestors u)) ∧
      (∀ c u, c ∈ s.ancestors u ↔ Loaded records c ∧ c ≠ u ∧ s.isAncestor c u = true) ∧
      ∀ u, ¬ Loaded records u → s.ancestors u = [] := by
  refine ⟨ofRecords records, load_eq_ofRecords hd, fun c u => isAncestor_iff hd,
    increasing_ancestors hd, fun c u => mem_ancestors_iff hd, fun u hu => ?_⟩
  rw [ancestors, (index?_eq_none_iff hd).mpr hu]

/-- Two groups that hold each other, and one that is a parent without being loaded. -/
def ringRecords : List Entity :=
  [⟨⟨"Group", "a"⟩, [], [⟨"Group", "b"⟩, ⟨"Group", "gone"⟩]⟩,
    ⟨⟨"Group", "b"⟩, [], [⟨"Group", "a"⟩]⟩]

/-- On a ring each member is below the other, and a parent that is not loaded is above none. -/
theorem ring_ancestry :
    (ringRecords.map Entity.uid).Nodup ∧ ∃ s, load ringRecords = .ok s ∧
      s.isAncestor ⟨"Group", "b"⟩ ⟨"Group", "a"⟩ = true ∧
      s.isAncestor ⟨"Group", "a"⟩ ⟨"Group", "b"⟩ = true ∧
      s.isAncestor ⟨"Group", "gone"⟩ ⟨"Group", "a"⟩ = false := by
  have hd : (ringRecords.map Entity.uid).Nodup := by decide
  obtain ⟨s, hs, hanc, -⟩ := load_ancestry ringRecords hd
  have hab : LoadedParent ringRecords ⟨"Group", "a"⟩ ⟨"Group", "b"⟩ := by decide
  have hba : LoadedParent ringRecords ⟨"Group", "b"⟩ ⟨"Group", "a"⟩ := by decide
  refine ⟨hd, s, hs, (hanc _ _).mpr (.inr (.single hab)), (hanc _ _).mpr (.inr (.single hba)), ?_⟩
  refine Bool.eq_false_iff.mpr fun h => ?_
  rcases (hanc _ _).mp h with h | h
  · revert h
    decide
  · have hg : ¬ Loaded ringRecords ⟨"Group", "gone"⟩ := by decide
    exact hg (loaded_of_path h).2

end Store

end AccessPolicy

import AccessPolicy.Proofs.Repeat
import AccessPolicy.Proofs.Store.Ancestry
import AccessPolicy.Proofs.Store.Search

/-! # Loading keeps the records

A store has the records in their order and finds each by its reference. For every record it has the
positions of the loaded parents, and nowhere a position that is none (`Faithful`), so no query looks
outside of what was loaded. Records are refused exactly if a reference repeats, and the first
repetition is reported. -/

namespace AccessPolicy.Store

/-- A record before has the same reference. -/
def RepeatsUid (before : List Entity) (e : Entity) (_after : List Entity) : Prop :=
  e.uid ∈ before.map Entity.uid

/-- The store holds the records, and all its positions are positions of records. -/
structure Faithful (records : List Entity) (s : Store) : Prop where
  entities : s.entities = records
  get?_iff : ∀ u e, s.get? u = some e ↔ e ∈ records ∧ e.uid = u
  get?_none_iff : ∀ u, s.get? u = none ↔ ¬ Loaded records u
  /-- The position of a reference is that of the entity with it. -/
  index?_iff : ∀ u i, s.index? u = some i ↔ uidAt? records i = some u
  length_edges : s.edges.length = records.length
  /-- The edges of an entity lead to its loaded parents, in their order. -/
  edges : ∀ (i : Nat) (e : Entity), records[i]? = some e → ∃ out, s.edges[i]? = some out ∧
    List.Forall₂ (fun v j => uidAt? records j = some v)
      (e.parents.filter fun v => Loaded records v) out
  /-- A look-up by position finds what the look-up by reference does. -/
  lookup : ∀ u i, s.index? u = some i → ∃ e, s.entities[i]? = some e ∧ s.get? u = some e
  /-- Every step of a search can be taken, and the search ends with the closure. -/
  search : ∀ i out, s.edges[i]? = some out →
    (∀ n, ∃ x : Search, Search.run? s.edges n ⟨[], out⟩ = some x ∧ x.Within s.edges) ∧
      ∃ n, Search.run? s.edges n ⟨[], out⟩ = some ⟨s.closure i, []⟩
  closure : ∀ i, ∀ j ∈ s.closure i, ∃ e, s.entities[j]? = some e

variable {records : List Entity} {u : Uid} {i : Nat}

/-! ## Refusals -/

theorem load_eq_error_iff {e : StoreError} :
    load records = .error e ↔ ∃ r, IsFirst RepeatsUid records r ∧ e = .duplicateEntity r.uid := by
  have hrepeat : ∀ r, IsFirst (fun before r _ => r.uid ∈ [] ∨ r.uid ∈ before.map Entity.uid)
      records r ↔ IsFirst RepeatsUid records r := by
    intro r
    exact IsFirst.congr fun before r after _ => by simp [RepeatsUid]
  have hfirst : ∀ u, firstRepeat? [] (records.map Entity.uid) = some u ↔
      ∃ r, IsFirst RepeatsUid records r ∧ r.uid = u := by
    intro u
    simp only [firstRepeat?_map_eq_some_iff, hrepeat]
  rw [load]
  cases hu : firstRepeat? [] (records.map Entity.uid) with
  | none =>
    have hnone : ∀ r, ¬ IsFirst RepeatsUid records r := by
      intro r hr
      cases hu.symm.trans ((hfirst r.uid).2 ⟨r, hr, rfl⟩)
    simp [hnone]
  | some u =>
    constructor
    · intro h
      obtain ⟨r, hr, rfl⟩ := (hfirst u).1 hu
      exact ⟨r, hr, (Except.error.inj h).symm⟩
    · intro h
      obtain ⟨r, hr, rfl⟩ := h
      rw [Option.some.inj (hu.symm.trans ((hfirst r.uid).2 ⟨r, hr, rfl⟩))]

/-! ## Positions -/

section

variable (hd : (records.map Entity.uid).Nodup)

include hd

theorem indexIn?_eq_none_iff : indexIn? records u = none ↔ ¬ Loaded records u :=
  index?_eq_none_iff hd

/-- Of the listed references, those that are loaded have a position. -/
theorem forall₂_positions (us : List Uid) :
    List.Forall₂ (fun v j => uidAt? records j = some v) (us.filter fun v => Loaded records v)
      (us.filterMap (indexIn? records)) := by
  induction us with
  | nil => exact .nil
  | cons v us ih =>
    cases hv : indexIn? records v with
    | none =>
      have hnot : ¬ Loaded records v := (indexIn?_eq_none_iff hd).1 hv
      simpa [hv, hnot] using ih
    | some j =>
      have hat : uidAt? records j = some v := (indexIn?_eq_some_iff hd).1 hv
      have hloaded : Loaded records v := exists_uidAt?_iff.1 ⟨j, hat⟩
      simpa [hv, hloaded] using ⟨hat, ih⟩

theorem closed_edges : Closed (ofRecords records).edges := by
  intro out hout j hj
  obtain ⟨e, -, rfl⟩ := List.mem_map.1 hout
  obtain ⟨v, -, hv⟩ := List.mem_filterMap.1 hj
  obtain ⟨f, hf, -⟩ := uidAt?_eq_some_iff.1 ((indexIn?_eq_some_iff hd).1 hv)
  obtain ⟨hlt, -⟩ := List.getElem?_eq_some_iff.1 hf
  simpa [ofRecords] using hlt

theorem get?_of_index? (h : (ofRecords records).index? u = some i) :
    ∃ e, records[i]? = some e ∧ (ofRecords records).get? u = some e := by
  obtain ⟨e, he, hu⟩ := uidAt?_eq_some_iff.1 ((index?_eq_some_iff hd).1 h)
  exact ⟨e, he, (get?_eq_some_iff hd).2 ⟨List.mem_of_getElem? he, hu⟩⟩

theorem get?_eq_none_iff : (ofRecords records).get? u = none ↔ ¬ Loaded records u := by
  simp only [Option.eq_none_iff_forall_ne_some, ne_eq, get?_eq_some_iff hd, Loaded, not_exists]

theorem faithful_ofRecords : (ofRecords records).Faithful records where
  entities := rfl
  get?_iff _ _ := get?_eq_some_iff hd
  get?_none_iff _ := get?_eq_none_iff hd
  index?_iff _ _ := index?_eq_some_iff hd
  length_edges := List.length_map _
  edges i e he := by
    refine ⟨e.parents.filterMap (indexIn? records), ?_, forall₂_positions hd e.parents⟩
    rw [ofRecords, List.getElem?_map, he, Option.map_some]
  lookup _ _ := get?_of_index? hd
  search i out hout := by
    have hclosed := closed_edges hd
    have hwithin : Search.Within (ofRecords records).edges ⟨[], out⟩ :=
      ⟨fun _ hp => absurd hp List.not_mem_nil, hclosed _ (List.mem_of_getElem? hout)⟩
    exact ⟨Search.run?_within hclosed hwithin, exists_run?_closure hclosed hout⟩
  closure i j hj := by
    have hlt : j < (ofRecords records).edges.length :=
      List.mem_range.1 (mem_left_of_mem_reach hj)
    rw [ofRecords, List.length_map] at hlt
    exact ⟨records[j], List.getElem?_eq_getElem hlt⟩

end

/-- **Loading is lossless or refused.** Records load if and only if their references are pairwise
distinct, and otherwise the first record is reported whose reference an earlier one has. A loaded
store holds the records as they are, finds each by its reference and nothing else, and has edges to
the loaded parents only; no look-up, search or closure meets a position outside of it. -/
theorem load_lossless (records : List Entity) :
    ((∃ s, load records = .ok s) ↔ (records.map Entity.uid).Nodup) ∧
      (∀ e, load records = .error e ↔
        ∃ r, IsFirst RepeatsUid records r ∧ e = .duplicateEntity r.uid) ∧
      ∀ s, load records = .ok s → s.Faithful records := by
  refine ⟨?_, fun e => load_eq_error_iff, ?_⟩
  · simp only [load_eq_ok_iff, exists_and_left, exists_eq, and_true]
  · intro s hs
    obtain ⟨hd, rfl⟩ := load_eq_ok_iff.1 hs
    exact faithful_ofRecords hd

/-- A ring with a parent that is not loaded has edges between its members alone; another record for
one of them is refused. -/
theorem load_lossless_ring :
    let other : Entity := ⟨⟨"Group", "a"⟩, [("size", .long 2)], []⟩
    (∃ s, load ringRecords = .ok s ∧ s.edges = [[1], [0]] ∧ s.Faithful ringRecords) ∧
      load (ringRecords ++ [other]) = .error (.duplicateEntity ⟨"Group", "a"⟩) := by
  intro other
  obtain ⟨hok, -, hfaithful⟩ := load_lossless ringRecords
  obtain ⟨s, hs⟩ := hok.2 (by decide)
  obtain ⟨-, hrefused, -⟩ := load_lossless (ringRecords ++ [other])
  have hedges : s.edges = [[1], [0]] := by
    obtain ⟨-, rfl⟩ := load_eq_ok_iff.1 hs
    decide
  have hfirst : IsFirst RepeatsUid (ringRecords ++ [other]) other := by
    refine IsFirst.cons_iff.2 (.inr ⟨List.not_mem_nil, IsFirst.cons_iff.2 (.inr ⟨?_, ?_⟩)⟩)
    · unfold RepeatsUid
      decide
    · refine IsFirst.cons_iff.2 (.inl ⟨?_, rfl⟩)
      unfold RepeatsUid
      decide
  exact ⟨⟨s, hs, hedges, hfaithful s hs⟩, (hrefused _).2 ⟨other, hfirst, rfl⟩⟩

end AccessPolicy.Store

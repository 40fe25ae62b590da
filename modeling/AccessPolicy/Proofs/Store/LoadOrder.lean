import AccessPolicy.Proofs.Eval.Agree
import AccessPolicy.Proofs.Store.Ancestry

/-! # The order of the records

Loading gives every entity a position, so two orders of the same records differ in all positions
and edges. No position shows: what a store tells is about references, and `load_perm` says that it
is the same for every order, from single look-ups up to whole responses. -/

namespace AccessPolicy

namespace Store

/-- Nothing that is asked of the stores tells them apart. -/
structure Alike (s s' : Store) : Prop where
  get? : ∀ u, s.get? u = s'.get? u
  attributeAt : ∀ u path, s.attributeAt u path = s'.attributeAt u path
  isAncestor : ∀ c u, s.isAncestor c u = s'.isAncestor c u
  ancestors : ∀ u, s.ancestors u = s'.ancestors u
  evaluate : ∀ r e, evaluate ⟨r, s⟩ e = evaluate ⟨r, s'⟩ e
  authorize : ∀ (a b : Authorizer) ps r, a.authorize ps s r = b.authorize ps s' r

variable {records other : List Entity}

theorem nodup_uid_iff (h : records.Perm other) :
    (records.map Entity.uid).Nodup ↔ (other.map Entity.uid).Nodup :=
  (h.map Entity.uid).nodup_iff

theorem loaded_iff (h : records.Perm other) (u : Uid) : Loaded records u ↔ Loaded other u := by
  simp only [Loaded, h.mem_iff]

theorem loadedParent_eq (h : records.Perm other) : LoadedParent records = LoadedParent other := by
  funext u v
  simp only [LoadedParent, h.mem_iff, loaded_iff h]

section

variable (h : records.Perm other) (hd : (records.map Entity.uid).Nodup)

include h hd

theorem get?_perm (u : Uid) : (ofRecords records).get? u = (ofRecords other).get? u := by
  ext e
  rw [get?_eq_some_iff hd, get?_eq_some_iff ((nodup_uid_iff h).mp hd), h.mem_iff]

theorem isAncestor_perm (c u : Uid) :
    (ofRecords records).isAncestor c u = (ofRecords other).isAncestor c u := by
  rw [Bool.eq_iff_iff, isAncestor_iff hd, isAncestor_iff ((nodup_uid_iff h).mp hd),
    loadedParent_eq h]

theorem ancestors_perm (u : Uid) :
    (ofRecords records).ancestors u = (ofRecords other).ancestors u := by
  have hd' : (other.map Entity.uid).Nodup := (nodup_uid_iff h).mp hd
  refine Sorted.eq_of_mem_iff (increasing_ancestors hd u) (increasing_ancestors hd' u) fun c => ?_
  rw [mem_ancestors_iff hd, mem_ancestors_iff hd', loaded_iff h, isAncestor_perm h hd]

theorem agreeWithin_perm : (ofRecords records).AgreeWithin (fun _ => True) (ofRecords other) where
  isAncestor := funext fun c => funext fun u => isAncestor_perm h hd c u
  attrs u _ := by rw [get?_perm h hd]
  closed _ _ _ _ _ v _ := v.within_of_forall fun _ => trivial

theorem alike_of_perm : (ofRecords records).Alike (ofRecords other) where
  get? := get?_perm h hd
  attributeAt u path := by rw [attributeAt, attributeAt, get?_perm h hd]
  isAncestor := isAncestor_perm h hd
  ancestors := ancestors_perm h hd
  evaluate r e := evaluate_congr (r.within_of_forall fun _ => trivial) (agreeWithin_perm h hd)
    (e.within_of_forall fun _ => trivial)
  authorize a b _ r := a.authorize_eq_of_agreeWithin b (r.within_of_forall fun _ => trivial)
    (agreeWithin_perm h hd) fun p _ => p.within_of_forall fun _ => trivial

end

/-- **The order of the records does not matter.** Records load in one order when they load in
another, and the stores give the same entities, attributes, ancestry and ancestors, the same value
or error for every expression, and the same response to every request. -/
theorem load_perm (h : records.Perm other) :
    ((∃ s, load records = .ok s) ↔ ∃ s, load other = .ok s) ∧
      ∀ s s', load records = .ok s → load other = .ok s' → s.Alike s' := by
  constructor
  · simp only [load_eq_ok_iff, exists_and_left, exists_eq, and_true, nodup_uid_iff h]
  · intro s s' hs hs'
    obtain ⟨hd, rfl⟩ := load_eq_ok_iff.mp hs
    obtain ⟨-, rfl⟩ := load_eq_ok_iff.mp hs'
    exact alike_of_perm h hd

/-- The edges of a chain point the other way along the positions, and the stores are alike. -/
theorem load_perm_chain :
    let records : List Entity :=
      [⟨⟨"User", "ann"⟩, [("level", .long 1)], [⟨"Group", "team"⟩]⟩,
        ⟨⟨"Group", "team"⟩, [], [⟨"Group", "org"⟩, ⟨"Group", "gone"⟩]⟩, ⟨⟨"Group", "org"⟩, [], []⟩]
    records.Perm records.reverse ∧ ∃ s s', load records = .ok s ∧ load records.reverse = .ok s' ∧
      s.edges = [[1], [2], []] ∧ s'.edges = [[], [0], [1]] ∧ s.Alike s' := by
  intro records
  have hperm : records.Perm records.reverse := records.reverse_perm.symm
  have hload : load records = .ok (ofRecords records) := load_eq_ofRecords (by decide)
  obtain ⟨s', hload'⟩ := (load_perm hperm).1.mp ⟨_, hload⟩
  refine ⟨hperm, _, s', hload, hload', by decide, ?_, (load_perm hperm).2 _ _ hload hload'⟩
  obtain ⟨-, rfl⟩ := load_eq_ok_iff.mp hload'
  decide

end Store

end AccessPolicy

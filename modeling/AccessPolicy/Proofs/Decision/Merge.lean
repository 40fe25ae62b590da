import AccessPolicy.Proofs.Decision.Declared

/-! # Deciding a policy set in parts

`Response.merge` puts the responses to two parts of a policy set together. A part
that denies for a reason hides what the other part permits, and the default to
deny hides nothing. `authorize_append` shows that the merged response is the
response to the whole set, for every cut, and that the order of the policies only
orders what a response lists. -/

namespace AccessPolicy

/-! ## Parts and orders of a policy set -/

theorem Unambiguous.sublist {ps qs : List Policy} (h : Unambiguous ps) (hs : qs.Sublist ps) :
    Unambiguous qs where
  ids_nodup := h.ids_nodup.sublist (hs.map _)
  names_nodup := h.names_nodup.sublist (hs.filterMap _)
  id_eq_of_name p hp q hq := h.id_eq_of_name p (hs.mem hp) q (hs.mem hq)

theorem Unambiguous.perm {ps qs : List Policy} (h : Unambiguous ps) (hp : qs.Perm ps) :
    Unambiguous qs where
  ids_nodup := (hp.map _).nodup_iff.mpr h.ids_nodup
  names_nodup := (hp.filterMap _).nodup_iff.mpr h.names_nodup
  id_eq_of_name p hm q hq := h.id_eq_of_name p (hp.mem_iff.mp hm) q (hp.mem_iff.mp hq)

/-- What is unambiguous is accepted, as it stands. -/
theorem PolicySet.ofPolicies_eq_ok_iff {ps : List Policy} {set : PolicySet} :
    PolicySet.ofPolicies ps = .ok set ↔ set.policies = ps := by
  constructor
  · intro h
    simp only [PolicySet.ofPolicies] at h
    split at h
    · cases h
    · split at h
      · cases h
      · cases h
        rfl
  · rintro rfl
    have hids : firstRepeat? [] (set.policies.map fun p => p.id.text) = none :=
      firstRepeat?_eq_none_iff.mpr ⟨set.unambiguous.ids_nodup, fun _ _ => List.not_mem_nil⟩
    have hnames : PolicySet.nameClash? (set.policies.map fun p => p.id.text) [] set.policies =
        none := by
      refine PolicySet.nameClash?_eq_none_iff.mpr ⟨set.unambiguous.names_nodup, ?_⟩
      refine fun p hp name hn => ⟨fun hm => ?_, List.not_mem_nil⟩
      obtain ⟨q, hq, rfl⟩ := List.mem_map.mp hm
      exact congrArg PolicyId.text (set.unambiguous.id_eq_of_name p hp q hq hn).symm
    simp only [PolicySet.ofPolicies]
    split
    · rename_i id hid
      exact absurd (hids.symm.trans hid) (by simp)
    · split
      · rename_i name hname
        exact absurd (hnames.symm.trans hname) (by simp)
      · rfl

theorem PolicySet.exists_ofPolicies {ps : List Policy} (h : Unambiguous ps) :
    ∃ set, PolicySet.ofPolicies ps = .ok set :=
  ⟨⟨ps, h⟩, PolicySet.ofPolicies_eq_ok_iff.mpr rfl⟩

/-! ## Responses to parts -/

namespace Response

/-- A denial that rests on policies, unlike the default. -/
def Forbids (x : Response) : Prop := x.decision = .deny ∧ x.reasons ≠ []

instance (x : Response) : Decidable x.Forbids :=
  inferInstanceAs (Decidable (x.decision = .deny ∧ x.reasons ≠ []))

/-- The responses to two parts of a policy set as one. -/
def merge (x y : Response) : Response :=
  let errors := x.errors ++ y.errors
  if x.Forbids ∨ y.Forbids then
    let parts := [x, y].filter fun z => z.Forbids
    ⟨.deny, parts.flatMap reasons, errors, parts.flatMap notes⟩
  else if x.decision = .allow ∨ y.decision = .allow then
    ⟨.allow, x.reasons ++ y.reasons, errors, x.notes ++ y.notes⟩
  else ⟨.deny, [], errors, []⟩

end Response

theorem satisfiedBy_append (effect : Effect) (xs ys : List (Policy × Outcome)) :
    satisfiedBy effect (xs ++ ys) = satisfiedBy effect xs ++ satisfiedBy effect ys :=
  List.filterMap_append

theorem errorsOf_append (xs ys : List (Policy × Outcome)) :
    errorsOf (xs ++ ys) = errorsOf xs ++ errorsOf ys :=
  List.filterMap_append

namespace Response

/-- One merge for every cut: what the two parts hide from each other is told by their reasons. -/
theorem ofResults_append (xs ys : List (Policy × Outcome)) :
    ofResults (xs ++ ys) = (ofResults xs).merge (ofResults ys) := by
  simp only [ofResults, satisfiedBy_append, errorsOf_append]
  -- Which of the four lists are empty settles the decision of both parts and of the whole.
  cases satisfiedBy .forbid xs <;> cases satisfiedBy .forbid ys <;>
    cases satisfiedBy .permit xs <;> cases satisfiedBy .permit ys <;>
    simp [merge, Forbids, resting]

/-- The same decision, and the same lists in another order. -/
structure Reordered (x y : Response) : Prop where
  decision : x.decision = y.decision
  reasons : x.reasons.Perm y.reasons
  errors : x.errors.Perm y.errors
  notes : x.notes.Perm y.notes

theorem reordered_resting (decision : Decision) {ps qs : List Policy} {es fs : List PolicyError}
    (hp : ps.Perm qs) (he : es.Perm fs) :
    (resting decision ps es).Reordered (resting decision qs fs) :=
  ⟨rfl, hp.map _, he, hp.flatMap_right _⟩

theorem ofResults_eq (xs : List (Policy × Outcome)) :
    ofResults xs =
      if satisfiedBy .forbid xs = [] then
        resting (if satisfiedBy .permit xs = [] then .deny else .allow)
          (satisfiedBy .permit xs) (errorsOf xs)
      else resting .deny (satisfiedBy .forbid xs) (errorsOf xs) := by
  simp only [ofResults]
  cases satisfiedBy .forbid xs <;> cases satisfiedBy .permit xs <;> simp

theorem reordered_ofResults {xs ys : List (Policy × Outcome)} (h : xs.Perm ys) :
    (ofResults xs).Reordered (ofResults ys) := by
  have hsat : ∀ effect, (satisfiedBy effect xs).Perm (satisfiedBy effect ys) :=
    fun _ => h.filterMap _
  have hnil : ∀ effect, satisfiedBy effect xs = [] ↔ satisfiedBy effect ys = [] :=
    fun effect => ⟨fun he => (he ▸ hsat effect).nil_eq.symm, fun he => (he ▸ hsat effect).eq_nil⟩
  have herrors : (errorsOf xs).Perm (errorsOf ys) := h.filterMap _
  simp only [ofResults_eq, hnil]
  split
  · exact reordered_resting _ (hsat .permit) herrors
  · exact reordered_resting _ (hsat .forbid) herrors

end Response

namespace Authorizer

/-- **Responses merge.** If policies are accepted together, then any two parts of
them are accepted, and the responses to the parts, each under an authorizer of its
own, make up the response to all. In another order the policies are accepted too
and give the same decision for the same reasons. -/
theorem authorize_append {ps qs : List Policy} {all : PolicySet}
    (h : PolicySet.ofPolicies (ps ++ qs) = .ok all) :
    (∃ left right, PolicySet.ofPolicies ps = .ok left ∧ PolicySet.ofPolicies qs = .ok right ∧
      ∀ (a b c : Authorizer) (s : Store) (r : Request),
        a.authorize all s r = (b.authorize left s r).merge (c.authorize right s r)) ∧
      ∀ rs : List Policy, rs.Perm (ps ++ qs) →
        ∃ other, PolicySet.ofPolicies rs = .ok other ∧
          ∀ (a b : Authorizer) (s : Store) (r : Request),
            (b.authorize other s r).Reordered (a.authorize all s r) := by
  have hall : all.policies = ps ++ qs := PolicySet.ofPolicies_eq_ok_iff.mp h
  have hun : Unambiguous (ps ++ qs) := hall ▸ all.unambiguous
  constructor
  · obtain ⟨left, hleft⟩ :=
      PolicySet.exists_ofPolicies (hun.sublist (List.sublist_append_left ps qs))
    obtain ⟨right, hright⟩ :=
      PolicySet.exists_ofPolicies (hun.sublist (List.sublist_append_right ps qs))
    refine ⟨left, right, hleft, hright, fun a b c s r => ?_⟩
    simp only [authorize_eq, hall, PolicySet.ofPolicies_eq_ok_iff.mp hleft,
      PolicySet.ofPolicies_eq_ok_iff.mp hright, outcomes, List.map_append,
      Response.ofResults_append]
  · intro rs hrs
    obtain ⟨other, hother⟩ := PolicySet.exists_ofPolicies (hun.perm hrs)
    refine ⟨other, hother, fun a b s r => ?_⟩
    simp only [authorize_eq, hall, PolicySet.ofPolicies_eq_ok_iff.mp hother]
    exact Response.reordered_ofResults (hrs.map _)

/-- A permit without conditions alone allows, and merged with a forbid leaves no trace. -/
theorem authorize_append_hidden :
    let permit : Policy := ⟨.ofIndex 0, .permit, {}, [], ⟨[("team", "web")]⟩⟩
    let forbid : Policy := ⟨.ofIndex 1, .forbid, {}, [], ⟨[("why", "frozen")]⟩⟩
    ∃ all left right, PolicySet.ofPolicies ([permit] ++ [forbid]) = .ok all ∧
      PolicySet.ofPolicies [permit] = .ok left ∧ PolicySet.ofPolicies [forbid] = .ok right ∧
      ∀ (a : Authorizer) (s : Store) (r : Request),
        a.authorize left s r = ⟨.allow, [permit.id], [], [⟨permit.id, "team", "web"⟩]⟩ ∧
          a.authorize all s r = (a.authorize left s r).merge (a.authorize right s r) ∧
          a.authorize all s r = ⟨.deny, [forbid.id], [], [⟨forbid.id, "why", "frozen"⟩]⟩ := by
  intro permit forbid
  obtain ⟨all, h⟩ : ∃ all, PolicySet.ofPolicies ([permit] ++ [forbid]) = .ok all :=
    PolicySet.exists_ofPolicies (PolicySet.unambiguous_of_none (by decide) (by decide))
  obtain ⟨⟨left, right, hleft, hright, hmerge⟩, -⟩ := authorize_append h
  have hallow (a : Authorizer) (s : Store) (r : Request) :
      a.authorize left s r = ⟨.allow, [permit.id], [], [⟨permit.id, "team", "web"⟩]⟩ := by
    rw [authorize_eq, PolicySet.ofPolicies_eq_ok_iff.mp hleft]
    rfl
  have hdeny (a : Authorizer) (s : Store) (r : Request) :
      a.authorize right s r = ⟨.deny, [forbid.id], [], [⟨forbid.id, "why", "frozen"⟩]⟩ := by
    rw [authorize_eq, PolicySet.ofPolicies_eq_ok_iff.mp hright]
    rfl
  refine ⟨all, left, right, h, hleft, hright, fun a s r => ⟨hallow a s r, hmerge a a a s r, ?_⟩⟩
  rw [hmerge a a a s r, hallow, hdeny]
  rfl

end Authorizer

end AccessPolicy

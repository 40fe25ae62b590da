import AccessPolicy.Proofs.Decision.Merge
import AccessPolicy.Proofs.Policy.Annotations

/-! # Annotations in a response

The notes of a response are told by what the policies declare in the text: `NotesOn` gives those of
one policy from its declarations, and a response that `Reports` the declarations strings them
together in the order of its reasons. -/

namespace AccessPolicy

/-- The notes on the policy with an id, one for each key it declares but the one for its name. -/
def NotesOn (declared : List (List (String × String))) (id : PolicyId) (notes : List Note) :
    Prop :=
  ∃ i ds l, id = .ofIndex i ∧ declared[i]? = some ds ∧
    Collects (ds.filter fun d => d.1 != Policy.idKey) l ∧ notes = l.map fun a => ⟨id, a.1, a.2⟩

/-- The notes are those on the reasons, one reason after the other, and on no other policy. -/
structure Response.Reports (declared : List (List (String × String))) (r : Response) : Prop where
  parts : ∃ parts, List.Forall₂ (NotesOn declared) r.reasons parts ∧ r.notes = parts.flatten
  others : ∀ n ∈ r.notes, n.policy ∈ r.reasons

variable {declared : List (List (String × String))} {ps : List Policy}

theorem Policy.notesOn {i : Nat} {p : Policy} {ds : List (String × String)}
    (hid : p.id = .ofIndex i) (hds : declared[i]? = some ds)
    (h : Collects ds p.annotations.list) : NotesOn declared p.id p.notes :=
  ⟨i, ds, p.reported, hid, hds, h.filter fun key => key != Policy.idKey, rfl⟩

/-- The index in the id of a policy is that of its declarations. -/
theorem Policy.forall_notesOn
    (hids : ps.map Policy.id = (List.range declared.length).map PolicyId.ofIndex)
    (h : List.Forall₂ (fun p ds => Collects ds p.annotations.list) ps declared) :
    ∀ p ∈ ps, NotesOn declared p.id p.notes := by
  intro p hp
  obtain ⟨i, hi, rfl⟩ := List.getElem_of_mem hp
  have hi' : i < declared.length := h.length_eq ▸ hi
  have hid := congrArg (·[i]?) hids
  simp only [List.getElem?_map, List.getElem?_eq_getElem hi, List.getElem?_range hi',
    Option.map_some, Option.some.injEq] at hid
  exact Policy.notesOn hid (List.getElem?_eq_getElem hi') (h.get hi hi')

theorem Response.resting_reports (decision : Decision) (errors : List PolicyError)
    (h : ∀ p ∈ ps, NotesOn declared p.id p.notes) :
    (Response.resting decision ps errors).Reports declared where
  parts := by
    refine ⟨ps.map Policy.notes, ?_, List.flatMap_def⟩
    simpa [Response.resting, List.forall₂_map_left_iff, List.forall₂_map_right_iff,
      List.forall₂_same] using h
  others n hn := by
    obtain ⟨p, hp, hn⟩ := List.mem_flatMap.1 hn
    obtain ⟨a, -, rfl⟩ := List.mem_map.1 hn
    exact List.mem_map_of_mem hp

theorem Response.exists_ofResults_eq (env : Env) (ps : List Policy) :
    ∃ decision effect, Response.ofResults (outcomes env ps) =
      .resting decision (satisfiedOf env effect ps) (errorsOf (outcomes env ps)) := by
  rw [Response.ofResults_eq]
  simp only [satisfiedBy_outcomes]
  split
  · exact ⟨_, .permit, rfl⟩
  · exact ⟨_, .forbid, rfl⟩

namespace Authorizer

/-- **Annotations are reported as they are declared.** The semicolons cut an accepted text into
policies, each with the declarations at its front. The last `id` among them names the policy, whose
own id counts the policies before it all the same. A response shows the declarations of its reasons,
in their order, and those of no other policy. -/
theorem authorize_notes {bound : Nat} {text : String} (h : Policy.parseAll bound text = .ok ps) :
    ∃ ts spans declared, Tokens.ofText text = .ok ts ∧
      ts.kinds.splitOn (.symbol .semicolon) = spans ++ [[]] ∧
      List.Forall₂ (fun span ds => ∀ ds', Declares span ds' ↔ ds' = ds) spans declared ∧
      ps.map Policy.id = (List.range declared.length).map PolicyId.ofIndex ∧
      List.Forall₂ (fun p ds => ∀ name,
        p.name? = some name ↔ LastDeclared ds Policy.idKey name) ps declared ∧
      ∀ set, PolicySet.parse bound text = .ok set →
        ∀ (a : Authorizer) (s : Store) (r : Request), (a.authorize set s r).Reports declared := by
  obtain ⟨ts, hts, hps⟩ := Policy.parseAll_eq_ok_iff.1 h
  have hreads := Parse.policies_eq_ok_iff.1 hps
  obtain ⟨spans, declared, hspans, hdeclared, hcollects⟩ := hreads.declares
  have hids : ps.map Policy.id = (List.range declared.length).map PolicyId.ofIndex := by
    rw [hreads.map_id, hcollects.length_eq, List.range_eq_range']
  refine ⟨ts, spans, declared, hts, hspans, ?_, hids, ?_, ?_⟩
  · refine hdeclared.imp fun span ds hds ds' => ⟨fun hds' => hds'.unique hds, ?_⟩
    rintro rfl
    exact hds
  · exact hcollects.imp fun p ds hp name => hp.lookup_eq_some_iff
  · intro set hset a s r
    have hset : set.policies = ps := by
      rw [PolicySet.parse, h] at hset
      exact PolicySet.ofPolicies_eq_ok_iff.1 hset
    have hnotes : ∀ p ∈ ps, NotesOn declared p.id p.notes :=
      Policy.forall_notesOn hids hcollects
    obtain ⟨decision, effect, hresponse⟩ := Response.exists_ofResults_eq ⟨r, s⟩ ps
    rw [authorize_eq, hset, hresponse]
    exact Response.resting_reports _ _ fun p hp => hnotes p (mem_satisfiedOf.1 hp).1

/-- A key with two values, with a name between them, and a key without a value. -/
theorem authorize_notes_repeated :
    let text := "@a(\"1\")@id(\"x\")@b@a(\"\\u\x7b41\x7d\")permit(principal,action,resource);"
    let p : Policy := ⟨.ofIndex 0, .permit, {}, [], ⟨[("a", "A"), ("id", "x"), ("b", "")]⟩⟩
    Policy.parseAll 1 text = .ok [p] ∧
      ∃ set, PolicySet.parse 1 text = .ok set ∧ ∀ (a : Authorizer) (s : Store) (r : Request),
        (a.authorize set s r).Reports [[("a", "1"), ("id", "x"), ("b", ""), ("a", "A")]] ∧
          (a.authorize set s r).notes = [⟨p.id, "a", "A"⟩, ⟨p.id, "b", ""⟩] := by
  intro text p
  let head := [Kind.symbol .at, .ident "a", .symbol .leftParen, .string ['1'],
    .symbol .rightParen, .symbol .at, .ident "id", .symbol .leftParen, .string ['x'],
    .symbol .rightParen, .symbol .at, .ident "b", .symbol .at, .ident "a", .symbol .leftParen,
    .string ['\\', 'u', '\x7b', '4', '1', '\x7d'], .symbol .rightParen]
  let tail := [Kind.ident "permit", .symbol .leftParen, .ident "principal", .symbol .comma,
    .ident "action", .symbol .comma, .ident "resource", .symbol .rightParen]
  have hkinds : (Tokens.ofText text).map Tokens.kinds =
      .ok (head ++ tail ++ [.symbol .semicolon]) := by decide +kernel
  have hparse : Policy.parseAll 1 text = .ok [p] :=
    Policy.parseAll_eq_ok_of_kinds hkinds (by with_unfolding_all rfl)
  obtain ⟨set, hset⟩ : ∃ set, PolicySet.ofPolicies [p] = .ok set :=
    PolicySet.exists_ofPolicies (PolicySet.unambiguous_of_none (by decide) (by decide))
  have hset' : PolicySet.parse 1 text = .ok set := by
    rw [PolicySet.parse, hparse]
    exact hset
  refine ⟨hparse, set, hset', fun a s r => ⟨?_, ?_⟩⟩
  · obtain ⟨ts, spans, declared, hts, hspans, hdeclared, -, -, hreports⟩ := authorize_notes hparse
    have hcut : [head ++ tail] ++ [[]] = spans ++ [[]] := by
      rw [hts] at hkinds
      rw [← hspans, Except.ok.inj hkinds]
      rfl
    obtain rfl := List.append_cancel_right hcut
    have hescaped : Parse.Decodes ['\\', 'u', '\x7b', '4', '1', '\x7d'] "A" := by
      with_unfolding_all rfl
    have hdeclares : Declares (head ++ tail) [("a", "1"), ("id", "x"), ("b", ""), ("a", "A")] :=
      .valued rfl (.valued rfl (.bare (by decide) (.valued hescaped (.nil (by decide)))))
    obtain _ | ⟨hds, _ | _⟩ := hdeclared
    rw [(hds _).1 hdeclares]
    exact hreports set hset' a s r
  · rw [authorize_eq, PolicySet.ofPolicies_eq_ok_iff.1 hset]
    rfl

end Authorizer

end AccessPolicy

import AccessPolicy.Policy.Parser
import AccessPolicy.Repeat

/-! Policy sets: policies in source order whose ids are distinct, whose names are distinct, and of
which none is named by the id of another. -/

namespace AccessPolicy

/-- Ids are distinct, names are distinct, and no policy is named by the id of another. -/
structure Unambiguous (ps : List Policy) : Prop where
  ids_nodup : (ps.map fun p => p.id.text).Nodup
  names_nodup : (ps.filterMap Policy.name?).Nodup
  id_eq_of_name : ∀ p ∈ ps, ∀ q ∈ ps, p.name? = some q.id.text → p.id = q.id

structure PolicySet where
  policies : List Policy
  unambiguous : Unambiguous policies

inductive PolicySetError where
  | parse (e : ParseError)
  | duplicateId (id : String)
  deriving DecidableEq

def PolicySetError.message : PolicySetError → String
  | .parse e => e.message
  | .duplicateId id => "duplicate policy id `" ++ id ++ "`"

namespace PolicySet

/-- The first name that is among `seen`, or an earlier policy's, or the id of another policy. -/
def nameClash? (ids : List String) (seen : List String) : List Policy → Option String
  | [] => none
  | p :: ps =>
    match p.name? with
    | none => nameClash? ids seen ps
    | some name =>
      if (name ≠ p.id.text ∧ name ∈ ids) ∨ name ∈ seen then some name
      else nameClash? ids (name :: seen) ps

theorem nameClash?_eq_none_iff {ids seen : List String} {ps : List Policy} :
    nameClash? ids seen ps = none ↔
      (ps.filterMap Policy.name?).Nodup ∧
        ∀ p ∈ ps, ∀ name, p.name? = some name →
          (name ∈ ids → name = p.id.text) ∧ name ∉ seen := by
  induction ps generalizing seen with
  | nil => simp [nameClash?]
  | cons p ps ih =>
    cases hp : p.name? with
    | none => simp [nameClash?, hp, ih]
    | some name =>
      by_cases hc : (name ≠ p.id.text ∧ name ∈ ids) ∨ name ∈ seen
      · simp only [nameClash?, hp, if_pos hc, reduceCtorEq, false_iff, not_and]
        intro _ h
        obtain ⟨hid, hseen⟩ := h p List.mem_cons_self name hp
        exact hc.elim (fun hc => hc.1 (hid hc.2)) hseen
      · have hm : name ∈ ps.filterMap Policy.name? ↔ ∃ q ∈ ps, q.name? = some name := by simp
        simp only [nameClash?, hp, if_neg hc, ih, List.filterMap_cons, List.nodup_cons, hm,
          List.mem_cons]
        grind

theorem unambiguous_of_none {ps : List Policy}
    (hid : firstRepeat? [] (ps.map fun p => p.id.text) = none)
    (hname : nameClash? (ps.map fun p => p.id.text) [] ps = none) : Unambiguous ps := by
  obtain ⟨hnames, hother⟩ := nameClash?_eq_none_iff.mp hname
  refine ⟨(firstRepeat?_eq_none_iff.mp hid).1, hnames, fun p hp q hq h => ?_⟩
  have he := (hother p hp _ h).1 (List.mem_map_of_mem hq)
  exact congrArg PolicyId.mk he.symm

def ofPolicies (ps : List Policy) : Except PolicySetError PolicySet :=
  let ids := ps.map fun p => p.id.text
  match hid : firstRepeat? [] ids with
  | some id => .error (.duplicateId id)
  | none =>
    match hname : nameClash? ids [] ps with
    | some name => .error (.duplicateId name)
    | none => .ok ⟨ps, unambiguous_of_none hid hname⟩

def parse (bound : Nat) (text : String) : Except PolicySetError PolicySet :=
  match Policy.parseAll bound text with
  | .ok ps => ofPolicies ps
  | .error e => .error (.parse e)

def size (s : PolicySet) : Nat := s.policies.length

def get? (s : PolicySet) (id : PolicyId) : Option Policy :=
  s.policies.find? fun p => decide (p.id = id)

def named? (s : PolicySet) (name : String) : Option Policy :=
  s.policies.find? fun p => decide (p.name? = some name)

end PolicySet

end AccessPolicy

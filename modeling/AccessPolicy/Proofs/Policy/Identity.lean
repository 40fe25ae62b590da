import AccessPolicy.Proofs.Decision.Merge
import AccessPolicy.Proofs.Policy.Grammar
import AccessPolicy.Proofs.Repeat
import Mathlib.Data.List.Pairwise

/-! # What a policy is called

A set of policies accepts a list if every string calls at most one of its policies, by id or by
name. The two searches that decide this are told by the place where they stop
(`nameClash?_eq_some_iff`, `ofPolicies_eq_error_iff`), and the ids of a text never repeat because
the decimal numerals of different numbers differ. -/

namespace AccessPolicy

namespace Policy

/-- The string is the id or the name of the policy. -/
def AnswersTo (p : Policy) (s : String) : Prop := p.id.text = s ∨ p.name? = some s

/-- The id of the policy is the id of one before it. -/
def RepeatsId (before : List Policy) (p : Policy) (_after : List Policy) : Prop :=
  p.id.text ∈ before.map fun q => q.id.text

/-- The name of the policy is the name of one before it or the id of another one. -/
def NameTaken (before : List Policy) (p : Policy) (after : List Policy) : Prop :=
  ∃ name, p.name? = some name ∧
    (name ∈ before.filterMap name? ∨ ∃ q ∈ before ++ after, q.id.text = name)

/-- The name of the policy is among some ids and not its own, or among some names, or the name of
a policy before it. -/
def NameTakenAmong (ids seen : List String) (before : List Policy) (p : Policy)
    (_after : List Policy) : Prop :=
  ∃ name, p.name? = some name ∧
    ((name ≠ p.id.text ∧ name ∈ ids) ∨ name ∈ seen ∨ name ∈ before.filterMap name?)

end Policy

/-! ## Ids of a text -/

theorem PolicyId.ofIndex_injective {m n : Nat} (h : ofIndex m = ofIndex n) : m = n := by
  have htext : "policy" ++ toString m = "policy" ++ toString n := congrArg PolicyId.text h
  have hlist := congrArg String.toList htext
  simp only [String.toList_append] at hlist
  have hdigits := List.append_cancel_left hlist
  have hvalue := congrArg (fun ds => Nat.ofDigitChars 10 ds 0) hdigits
  simpa [Nat.toString_eq_ofList_toDigits] using hvalue

theorem Parse.ReadsPolicies.map_id {bound index : Nat} {ts : List Kind} {ps : List Policy}
    (h : ReadsPolicies bound index ts ps) :
    ps.map Policy.id = (List.range' index ps.length).map PolicyId.ofIndex := by
  induction h with
  | nil => rfl
  | cons hid _ _ ih =>
    rw [List.map_cons, hid, ih, List.length_cons, List.range'_succ, List.map_cons]

theorem Policy.ids_nodup_of_parseAll {bound : Nat} {text : String} {ps : List Policy}
    (h : Policy.parseAll bound text = .ok ps) : (ps.map fun p => p.id.text).Nodup := by
  obtain ⟨ts, -, hts⟩ := Policy.parseAll_eq_ok_iff.1 h
  have hids := (Parse.policies_eq_ok_iff.1 hts).map_id
  have hnodup : (ps.map Policy.id).Nodup := by
    rw [hids]
    exact List.Nodup.map (fun _ _ => PolicyId.ofIndex_injective) List.nodup_range'
  have htext : Function.Injective PolicyId.text := by
    intro a b hab
    cases a
    cases b
    exact congrArg PolicyId.mk hab
  simpa [Function.comp_def] using hnodup.map htext

/-! ## Strings that call a policy -/

theorem find?_eq_some_iff_of_unique {α : Type} {l : List α} {p : α → Bool} {a : α}
    (h : ∀ b ∈ l, ∀ c ∈ l, p b = true → p c = true → b = c) :
    l.find? p = some a ↔ a ∈ l ∧ p a = true := by
  constructor
  · intro hfind
    exact ⟨List.mem_of_find?_eq_some hfind, List.find?_some hfind⟩
  · intro ha
    obtain ⟨ha, hp⟩ := ha
    obtain ⟨b, hfind⟩ := Option.isSome_iff_exists.1 (List.find?_isSome.2 ⟨a, ha, hp⟩)
    rw [hfind, h b (List.mem_of_find?_eq_some hfind) a ha (List.find?_some hfind) hp]

namespace Unambiguous

variable {ps : List Policy}

/-- No two places of the list answer to one string. -/
theorem pairwise_answersTo (h : Unambiguous ps) (s : String) :
    ps.Pairwise fun p q => ¬ (p.AnswersTo s ∧ q.AnswersTo s) := by
  have hids : ps.Pairwise fun p q => p.id.text ≠ q.id.text := List.pairwise_map.1 h.ids_nodup
  have hnames : ps.Pairwise fun p q => ∀ a, p.name? = some a → ∀ b, q.name? = some b → a ≠ b :=
    List.pairwise_filterMap.1 h.names_nodup
  refine List.Pairwise.imp_of_mem ?_ (hids.and hnames)
  intro p q hp hq hpq hs
  obtain ⟨hid, hname⟩ := hpq
  obtain ⟨hps | hps, hqs | hqs⟩ := hs
  · exact hid (hps.trans hqs.symm)
  · rw [← hps] at hqs
    exact hid (congrArg PolicyId.text (h.id_eq_of_name q hq p hp hqs).symm)
  · rw [← hqs] at hps
    exact hid (congrArg PolicyId.text (h.id_eq_of_name p hp q hq hps))
  · exact hname s hps s hqs rfl

theorem eq_of_answersTo (h : Unambiguous ps) {p q : Policy} (hp : p ∈ ps) (hq : q ∈ ps)
    {s : String} (hps : p.AnswersTo s) (hqs : q.AnswersTo s) : p = q := by
  let Same (p q : Policy) : Prop := p.AnswersTo s ∧ q.AnswersTo s → p = q
  have hpairs : ps.Pairwise Same := (h.pairwise_answersTo s).imp fun hn hpq => absurd hpq hn
  have : Std.Symm Same := ⟨fun _ _ hsame hqp => (hsame hqp.symm).symm⟩
  exact List.Pairwise.forall_of_forall (fun _ _ _ => rfl) hpairs hp hq ⟨hps, hqs⟩

/-- What makes a list unambiguous, with the other policy told by its place. -/
theorem iff_pairwise :
    Unambiguous ps ↔ (ps.map fun p => p.id.text).Nodup ∧ (ps.filterMap Policy.name?).Nodup ∧
      ps.Pairwise fun p q => p.name? ≠ some q.id.text ∧ q.name? ≠ some p.id.text := by
  constructor
  · intro h
    refine ⟨h.ids_nodup, h.names_nodup, ?_⟩
    refine List.Pairwise.imp_of_mem ?_ (List.pairwise_map.1 h.ids_nodup)
    intro p q hp hq hne
    constructor
    · intro hname
      exact hne (congrArg PolicyId.text (h.id_eq_of_name p hp q hq hname))
    · intro hname
      exact hne (congrArg PolicyId.text (h.id_eq_of_name q hq p hp hname)).symm
  · intro h
    obtain ⟨hids, hnames, hother⟩ := h
    let Told (p q : Policy) : Prop :=
      (p.name? = some q.id.text → p.id = q.id) ∧ (q.name? = some p.id.text → q.id = p.id)
    have hpairs : ps.Pairwise Told :=
      hother.imp fun hne => ⟨fun hname => absurd hname hne.1, fun hname => absurd hname hne.2⟩
    have : Std.Symm Told := ⟨fun _ _ htold => htold.symm⟩
    have hself : ∀ p ∈ ps, Told p p := fun p _ => ⟨fun _ => rfl, fun _ => rfl⟩
    have hall := List.Pairwise.forall_of_forall hself hpairs
    exact ⟨hids, hnames, fun p hp q hq => (hall hp hq).1⟩

end Unambiguous

namespace PolicySet

/-- The look-ups of a set find what a string calls, by id and by name, and that is one policy. -/
structure Resolves (set : PolicySet) (s : String) : Prop where
  unique : set.policies.Pairwise fun p q => ¬ (p.AnswersTo s ∧ q.AnswersTo s)
  get?_iff : ∀ p, set.get? ⟨s⟩ = some p ↔ p ∈ set.policies ∧ p.id.text = s
  named?_iff : ∀ p, set.named? s = some p ↔ p ∈ set.policies ∧ p.name? = some s
  same : ∀ p q, set.get? ⟨s⟩ = some p → set.named? s = some q → p = q

theorem resolves (set : PolicySet) (s : String) : set.Resolves s := by
  have heq := @Unambiguous.eq_of_answersTo _ set.unambiguous
  have hget : ∀ p, set.get? ⟨s⟩ = some p ↔ p ∈ set.policies ∧ p.id.text = s := by
    intro p
    have hid : ∀ q : Policy, decide (q.id = ⟨s⟩) = true ↔ q.id.text = s := by
      intro q
      rw [decide_eq_true_iff]
      exact ⟨congrArg PolicyId.text, congrArg PolicyId.mk⟩
    rw [get?, find?_eq_some_iff_of_unique, hid]
    intro b hb c hc hbs hcs
    exact heq hb hc (.inl ((hid b).1 hbs)) (.inl ((hid c).1 hcs))
  have hnamed : ∀ p, set.named? s = some p ↔ p ∈ set.policies ∧ p.name? = some s := by
    intro p
    rw [named?, find?_eq_some_iff_of_unique, decide_eq_true_iff]
    intro b hb c hc hbs hcs
    exact heq hb hc (.inr (of_decide_eq_true hbs)) (.inr (of_decide_eq_true hcs))
  refine ⟨set.unambiguous.pairwise_answersTo s, hget, hnamed, fun p q hp hq => ?_⟩
  obtain ⟨hp, hps⟩ := (hget p).1 hp
  obtain ⟨hq, hqs⟩ := (hnamed q).1 hq
  exact heq hp hq (.inl hps) (.inr hqs)

/-! ## Refusals -/

theorem nameClash?_eq_some_iff {ids seen : List String} {ps : List Policy} {name : String} :
    nameClash? ids seen ps = some name ↔
      ∃ p, IsFirst (Policy.NameTakenAmong ids seen) ps p ∧ p.name? = some name := by
  induction ps generalizing seen with
  | nil => simp [nameClash?, IsFirst.not_nil]
  | cons q ps ih =>
    rw [nameClash?]
    cases hq : q.name? with
    | none =>
      have hnot : ¬ Policy.NameTakenAmong ids seen [] q ps := by simp [Policy.NameTakenAmong, hq]
      simp only [ih]
      refine exists_congr fun p => and_congr_left fun _ => ?_
      rw [IsFirst.cons_of_not_holds hnot]
      refine IsFirst.congr fun before r after _ => ?_
      simp only [Policy.NameTakenAmong, List.filterMap_cons, hq]
    | some own =>
      by_cases hc : (own ≠ q.id.text ∧ own ∈ ids) ∨ own ∈ seen
      · have hfirst : Policy.NameTakenAmong ids seen [] q ps := ⟨own, hq, by simpa using hc⟩
        simp only [if_pos hc, Option.some.injEq]
        constructor
        · intro hname
          exact ⟨q, IsFirst.cons_iff.2 (.inl ⟨hfirst, rfl⟩), hq.trans (congrArg some hname)⟩
        · intro h
          obtain ⟨p, hp, hname⟩ := h
          obtain ⟨-, rfl⟩ | ⟨hnot, -⟩ := IsFirst.cons_iff.1 hp
          · exact Option.some.inj (hq.symm.trans hname)
          · exact absurd hfirst hnot
      · have hnot : ¬ Policy.NameTakenAmong ids seen [] q ps := by
          intro h
          obtain ⟨name, hname, h⟩ := h
          obtain rfl := Option.some.inj (hq.symm.trans hname)
          exact hc (by simpa using h)
        simp only [if_neg hc, ih]
        refine exists_congr fun p => and_congr_left fun _ => ?_
        rw [IsFirst.cons_of_not_holds hnot]
        refine IsFirst.congr fun before r after _ => ?_
        simp only [Policy.NameTakenAmong, List.filterMap_cons, hq, List.mem_cons, or_assoc,
          or_left_comm]

/-- With distinct ids, an id that is not the policy's own is that of another one. -/
theorem nameTakenAmong_iff {before after : List Policy} {p : Policy}
    (h : ((before ++ p :: after).map fun q => q.id.text).Nodup) :
    Policy.NameTakenAmong ((before ++ p :: after).map fun q => q.id.text) [] before p after ↔
      Policy.NameTaken before p after := by
  rw [List.map_append, List.map_cons, List.nodup_middle, ← List.map_append] at h
  have hp : p.id.text ∉ (before ++ after).map fun q => q.id.text := (List.nodup_cons.1 h).1
  refine exists_congr fun name => and_congr_right fun _ => ?_
  have hother : name ≠ p.id.text ∧ name ∈ (before ++ p :: after).map (fun q => q.id.text) ↔
      ∃ q ∈ before ++ after, q.id.text = name := by
    constructor
    · intro hname
      obtain ⟨hne, hname⟩ := hname
      obtain ⟨q, hq, rfl⟩ := List.mem_map.1 hname
      refine ⟨q, ?_, rfl⟩
      rw [List.mem_append, List.mem_cons] at hq
      obtain hq | rfl | hq := hq
      · exact List.mem_append_left after hq
      · exact absurd rfl hne
      · exact List.mem_append_right before hq
    · intro hname
      obtain ⟨q, hq, rfl⟩ := hname
      refine ⟨fun heq => hp (heq ▸ List.mem_map_of_mem hq), List.mem_map.2 ⟨q, ?_, rfl⟩⟩
      exact (List.mem_append.1 hq).elim (List.mem_append_left _)
        fun hq => List.mem_append_right before (List.mem_cons_of_mem p hq)
  rw [hother]
  simp [or_comm]

/-- A refusal is what the search over the ids finds, or else what the search over the names does. -/
theorem ofPolicies_error_cases {ps : List Policy} {e : PolicySetError} :
    ofPolicies ps = .error e ↔
      (∃ id, firstRepeat? [] (ps.map fun p => p.id.text) = some id ∧ e = .duplicateId id) ∨
        firstRepeat? [] (ps.map fun p => p.id.text) = none ∧
          ∃ name, nameClash? (ps.map fun p => p.id.text) [] ps = some name ∧
            e = .duplicateId name := by
  simp only [ofPolicies]
  split
  · rename_i id hid
    simp [hid, eq_comm]
  · rename_i hid
    split
    · rename_i name hname
      simp [hid, hname, eq_comm]
    · rename_i hname
      simp [hid, hname]

/-- What is reported is the first id that repeats, or else the first name that is taken. -/
theorem ofPolicies_eq_error_iff {ps : List Policy} {e : PolicySetError} :
    ofPolicies ps = .error e ↔
      (∃ p, IsFirst Policy.RepeatsId ps p ∧ e = .duplicateId p.id.text) ∨
        (ps.map fun p => p.id.text).Nodup ∧
          ∃ p name, IsFirst Policy.NameTaken ps p ∧ p.name? = some name ∧
            e = .duplicateId name := by
  have hrepeat : ∀ p, IsFirst (fun before (q : Policy) _ =>
      q.id.text ∈ [] ∨ q.id.text ∈ before.map fun r => r.id.text) ps p ↔
        IsFirst Policy.RepeatsId ps p := by
    intro p
    exact IsFirst.congr fun before q after _ => by simp [Policy.RepeatsId]
  have hnone : firstRepeat? [] (ps.map fun p => p.id.text) = none ↔
      (ps.map fun p => p.id.text).Nodup := by
    simp [firstRepeat?_eq_none_iff]
  rw [ofPolicies_error_cases, hnone]
  refine or_congr ?_ (and_congr_right fun hids => ?_)
  · simp only [firstRepeat?_map_eq_some_iff, hrepeat]
    constructor
    · intro h
      obtain ⟨_, ⟨p, hp, rfl⟩, he⟩ := h
      exact ⟨p, hp, he⟩
    · intro h
      obtain ⟨p, hp, he⟩ := h
      exact ⟨_, ⟨p, hp, rfl⟩, he⟩
  · have htaken : ∀ p, IsFirst (Policy.NameTakenAmong (ps.map fun p => p.id.text) []) ps p ↔
        IsFirst Policy.NameTaken ps p := by
      intro p
      refine IsFirst.congr fun before q after hps => ?_
      subst hps
      exact nameTakenAmong_iff hids
    simp only [nameClash?_eq_some_iff, htaken]
    constructor
    · intro h
      obtain ⟨name, ⟨p, hp, hname⟩, he⟩ := h
      exact ⟨p, name, hp, hname, he⟩
    · intro h
      obtain ⟨p, name, hp, hname, he⟩ := h
      exact ⟨name, ⟨p, hp, hname⟩, he⟩

/-- **Policies are told apart by what they are called.** A list is accepted, as it stands, exactly
if ids are distinct, names are distinct and no name is the id of another policy. A string then
calls one policy at most, and the look-ups find it. A refusal reports the first id that repeats,
or with distinct ids the first name that an earlier policy has or that is the id of another one.
The ids of a text are distinct, so only its names can be refused. -/
theorem ofPolicies_identity (ps : List Policy) :
    ((∃ set, ofPolicies ps = .ok set) ↔
      (ps.map fun p => p.id.text).Nodup ∧ (ps.filterMap Policy.name?).Nodup ∧
        ps.Pairwise fun p q => p.name? ≠ some q.id.text ∧ q.name? ≠ some p.id.text) ∧
    (∀ set, ofPolicies ps = .ok set → set.policies = ps ∧ ∀ s, set.Resolves s) ∧
    (∀ e, ofPolicies ps = .error e ↔
      (∃ p, IsFirst Policy.RepeatsId ps p ∧ e = .duplicateId p.id.text) ∨
        (ps.map fun p => p.id.text).Nodup ∧
          ∃ p name, IsFirst Policy.NameTaken ps p ∧ p.name? = some name ∧
            e = .duplicateId name) ∧
    ∀ bound text, Policy.parseAll bound text = .ok ps →
      (ps.map fun p => p.id.text).Nodup ∧
        ∀ e, parse bound text = .error e ↔
          ∃ p name, IsFirst Policy.NameTaken ps p ∧ p.name? = some name ∧
            e = .duplicateId name := by
  refine ⟨?_, fun set hset => ?_, fun e => ofPolicies_eq_error_iff, fun bound text hparse => ?_⟩
  · rw [← Unambiguous.iff_pairwise]
    constructor
    · intro h
      obtain ⟨set, hset⟩ := h
      exact ofPolicies_eq_ok_iff.1 hset ▸ set.unambiguous
    · exact exists_ofPolicies
  · exact ⟨ofPolicies_eq_ok_iff.1 hset, fun s => set.resolves s⟩
  · have hids := Policy.ids_nodup_of_parseAll hparse
    refine ⟨hids, fun e => ?_⟩
    have hrepeat : ¬ ∃ p, IsFirst Policy.RepeatsId ps p ∧ e = .duplicateId p.id.text := by
      intro h
      obtain ⟨p, ⟨before, after, rfl, hmem, -⟩, -⟩ := h
      rw [List.map_append, List.map_cons, List.nodup_middle] at hids
      exact (List.nodup_cons.1 hids).1 (List.mem_append_left _ hmem)
    rw [parse, hparse]
    simp only [ofPolicies_eq_error_iff, hrepeat, false_or, and_iff_right hids]

/-- A policy may be named by its own id, and is found by it both ways; the same name on a later
policy is refused. -/
theorem ofPolicies_identity_own_id :
    let first : Policy := ⟨.ofIndex 0, .permit, {}, [], ⟨[("id", "policy0")]⟩⟩
    let other : Policy := ⟨.ofIndex 1, .forbid, {}, [], ⟨[("id", "b")]⟩⟩
    (∃ set, ofPolicies [first, other] = .ok set ∧ set.get? ⟨"policy0"⟩ = some first ∧
      set.named? "policy0" = some first ∧ set.named? "b" = some other) ∧
    parse 1 "permit(principal,action,resource);@id(\"policy0\")forbid(principal,action,resource);" =
      .error (.duplicateId "policy0") := by
  intro first other
  obtain ⟨haccepted, hset, -, -⟩ := ofPolicies_identity [first, other]
  obtain ⟨set, hof⟩ := haccepted.2 ⟨by decide, by decide, by decide⟩
  obtain ⟨hpolicies, hresolves⟩ := hset set hof
  have hfirst : first ∈ set.policies := by simp [hpolicies]
  have hother : other ∈ set.policies := by simp [hpolicies]
  let unnamed : Policy := ⟨.ofIndex 0, .permit, {}, [], ⟨[]⟩⟩
  let shadow : Policy := ⟨.ofIndex 1, .forbid, {}, [], ⟨[("id", "policy0")]⟩⟩
  have htext : Policy.parseAll 1
      "permit(principal,action,resource);@id(\"policy0\")forbid(principal,action,resource);" =
      .ok [unnamed, shadow] := by with_unfolding_all rfl
  obtain ⟨-, -, -, hparsed⟩ := ofPolicies_identity [unnamed, shadow]
  refine ⟨⟨set, hof, ((hresolves _).get?_iff first).2 ⟨hfirst, rfl⟩,
    ((hresolves _).named?_iff first).2 ⟨hfirst, rfl⟩,
    ((hresolves _).named?_iff other).2 ⟨hother, rfl⟩⟩, ((hparsed _ _ htext).2 _).2 ?_⟩
  have hfree : ¬ Policy.NameTaken [] unnamed [shadow] := by
    intro h
    obtain ⟨name, hname, -⟩ := h
    cases hname
  have htaken : Policy.NameTaken [unnamed] shadow [] :=
    ⟨"policy0", rfl, .inr ⟨unnamed, List.mem_singleton_self unnamed, by decide⟩⟩
  refine ⟨shadow, "policy0", IsFirst.cons_iff.2 (.inr ⟨hfree, ?_⟩), rfl, rfl⟩
  exact IsFirst.cons_iff.2 (.inl ⟨htaken, rfl⟩)

end PolicySet

end AccessPolicy

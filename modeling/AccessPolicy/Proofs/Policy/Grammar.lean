import AccessPolicy.Policy.Parser
import AccessPolicy.Proofs.Parse.Complete

/-! # The grammar of policies

Annotations, scopes, conditions and whole policies, one rule for each form, as `Reads` is the
grammar of expressions. A policy is read if and only if its parts are. Every condition body of an
accepted text is derived as an expression with the whole bound as its room. -/

namespace AccessPolicy

/-- The bodies of the conditions of some policies. -/
def Policy.bodies (ps : List Policy) : List Expr :=
  ps.flatMap fun p => p.conditions.map (·.body)

namespace Parse

/-! ## Lists of references -/

/-- References up to the bracket that closes them. -/
inductive ReadsUids : List Kind → List Uid → List Kind → Prop where
  | nil {rest} : ReadsUids (.symbol .rightBracket :: rest) [] rest
  | last {ts rest u} (hu : Takes (uid ts) u (.symbol .rightBracket :: rest)) :
    ReadsUids ts [u] rest
  | cons {ts ts₁ rest u us} (hu : Takes (uid ts) u (.symbol .comma :: ts₁))
      (h : ReadsUids ts₁ us rest) :
    ReadsUids ts (u :: us) rest

theorem head?_of_takes_uid {ts rest : List Kind} {u : Uid} (h : Takes (uid ts) u rest)
    (s : Symbol) : ts.head? ≠ some (.symbol s) := by
  obtain ⟨word, names, raw, rfl, -, -⟩ := takes_uid_iff.1 h
  simp

theorem takes_uids_iff {ts rest : List Kind} {us : List Uid} :
    Takes (uids ts) us rest ↔ ReadsUids ts us rest := by
  constructor
  · intro h
    -- Each round leaves fewer tokens, so the induction is on their number.
    induction hn : ts.length using Nat.strongRecOn generalizing ts us with
    | ind n ih =>
      rw [uids] at h
      split at h
      · rename_i r hr
        obtain ⟨rfl, rfl⟩ := takes_ok.1 h
        obtain ⟨_, ts₁, _⟩ := r
        obtain rfl : ts = .symbol .rightBracket :: ts₁ := Taken.accept?_eq_some_iff.1 hr
        exact .nil
      · obtain ⟨u, ts₁, h₁, hu, h⟩ := h.bind
        dsimp only at h
        split at h
        · rename_i r hr
          obtain ⟨rfl, rfl⟩ := takes_ok.1 h
          have hts : ts₁ = .symbol .rightBracket :: r.rest := Taken.accept?_eq_some_iff.1 hr
          exact .last (hts ▸ hu)
        · obtain ⟨_, ts₂, h₂, hcomma, h⟩ := h.bind
          obtain rfl := takes_expect_iff.1 hcomma
          obtain ⟨us, ts₃, h₃, hus, h⟩ := h.bind
          obtain ⟨rfl, rfl⟩ := takes_ok.1 h
          exact .cons hu (ih _ (hn ▸ h₂.trans h₁) hus rfl)
  · intro h
    induction h with
    | nil =>
      rw [uids]
      simp only [accept?_cons_self]
      exact takes_ok.2 ⟨rfl, rfl⟩
    | last hu =>
      rw [uids]
      simp only [accept?_eq_none_iff.2 (head?_of_takes_uid hu .rightBracket)]
      refine .bind_intro hu fun _ => ?_
      simp only [accept?_cons_self]
      exact takes_ok.2 ⟨rfl, rfl⟩
    | cons hu _ ih =>
      rw [uids]
      simp only [accept?_eq_none_iff.2 (head?_of_takes_uid hu .rightBracket)]
      refine .bind_intro hu fun _ => ?_
      simp only [accept?_comma (show Symbol.rightBracket ≠ .comma by decide)]
      refine .bind_intro (takes_expect_iff.2 rfl) fun _ => ?_
      exact .bind_intro ih fun _ => takes_ok.2 ⟨rfl, rfl⟩

/-! ## Scopes -/

/-- What stands behind the word of a slot. -/
inductive ReadsConstraint (slot : Slot) : List Kind → ScopeConstraint → List Kind → Prop where
  | any {rest} (hequal : rest.head? ≠ some (.symbol .equalEqual))
      (hin : rest.head? ≠ some (.ident "in")) (his : rest.head? ≠ some (.ident "is")) :
    ReadsConstraint slot rest .any rest
  | equal {ts rest u} (hu : Takes (uid ts) u rest) :
    ReadsConstraint slot (.symbol .equalEqual :: ts) (.equal u) rest
  | within {ts rest u} (hu : Takes (uid ts) u rest) :
    ReadsConstraint slot (.ident "in" :: ts) (.within u) rest
  | withinAny {ts rest us} (hslot : slot = .action) (hus : ReadsUids ts us rest) :
    ReadsConstraint slot (.ident "in" :: .symbol .leftBracket :: ts) (.withinAny us) rest
  | is {ts rest name} (hname : Takes (path ts) name rest)
      (hin : rest.head? ≠ some (.ident "in")) :
    ReadsConstraint slot (.ident "is" :: ts) (.is name) rest
  | isIn {ts ts₁ rest name u} (hname : Takes (path ts) name (.ident "in" :: ts₁))
      (hu : Takes (uid ts₁) u rest) :
    ReadsConstraint slot (.ident "is" :: ts) (.isIn name u) rest

theorem takes_scopeTarget_iff {slot : Slot} {ts rest : List Kind} {c : ScopeConstraint} :
    Takes (scopeTarget slot ts) c rest ↔
      (∃ u, c = .within u ∧ Takes (uid ts) u rest) ∨
        ∃ us ts₁, slot = .action ∧ c = .withinAny us ∧ ts = .symbol .leftBracket :: ts₁ ∧
          ReadsUids ts₁ us rest := by
  constructor
  · intro h
    unfold scopeTarget at h
    split at h
    · rename_i ts₁ h₁ hopen
      obtain ⟨us, ts₂, h₂, hus, h⟩ := h.bind
      obtain ⟨rfl, rfl⟩ := takes_ok.1 h
      split at hopen
      · rename_i hslot
        have hts : ts = .symbol .leftBracket :: ts₁ := Taken.accept?_eq_some_iff.1 hopen
        exact .inr ⟨us, ts₁, hslot, rfl, hts, takes_uids_iff.1 hus⟩
      · cases hopen
    · obtain ⟨u, ts₁, h₁, hu, h⟩ := h.bind
      obtain ⟨rfl, rfl⟩ := takes_ok.1 h
      exact .inl ⟨u, rfl, hu⟩
  · unfold scopeTarget
    rintro (⟨u, rfl, hu⟩ | ⟨us, ts₁, rfl, rfl, rfl, hus⟩)
    · simp only [accept?_eq_none_iff.2 (head?_of_takes_uid hu .leftBracket), ite_self]
      exact .bind_intro hu fun _ => takes_ok.2 ⟨rfl, rfl⟩
    · simp only [if_true, accept?_cons_self]
      exact .bind_intro (takes_uids_iff.2 hus) fun _ => takes_ok.2 ⟨rfl, rfl⟩

theorem takes_scopeConstraint_iff {slot : Slot} {ts rest : List Kind} {c : ScopeConstraint} :
    Takes (scopeConstraint slot ts) c rest ↔ ReadsConstraint slot ts c rest := by
  constructor
  · intro h
    unfold scopeConstraint at h
    split at h
    · obtain ⟨u, ts₁, h₁, hu, h⟩ := h.bind
      obtain ⟨rfl, rfl⟩ := takes_ok.1 h
      exact .equal hu
    · obtain ⟨c, ts₁, h₁, hc, h⟩ := h.bind
      obtain ⟨rfl, rfl⟩ := takes_ok.1 h
      obtain ⟨u, rfl, hu⟩ | ⟨us, ts₁, hslot, rfl, rfl, hus⟩ := takes_scopeTarget_iff.1 hc
      · exact .within hu
      · exact .withinAny hslot hus
    · obtain ⟨name, ts₁, h₁, hname, h⟩ := h.bind
      dsimp only at h
      split at h
      · rename_i ts₂ h₂ hin
        obtain ⟨u, ts₃, h₃, hu, h⟩ := h.bind
        obtain ⟨rfl, rfl⟩ := takes_ok.1 h
        have hts : ts₁ = .ident "in" :: ts₂ := Taken.accept?_eq_some_iff.1 hin
        exact .isIn (hts ▸ hname) hu
      · rename_i hin
        obtain ⟨rfl, rfl⟩ := takes_ok.1 h
        exact .is hname (accept?_eq_none_iff.1 hin)
    · rename_i hequal hin his
      obtain ⟨rfl, rfl⟩ := takes_ok.1 h
      exact .any (head?_ne_of_forall hequal) (head?_ne_of_forall hin) (head?_ne_of_forall his)
  · intro h
    cases h with
    | any hequal hin his =>
      unfold scopeConstraint
      split
      · exact absurd rfl hequal
      · exact absurd rfl hin
      · exact absurd rfl his
      · exact takes_ok.2 ⟨rfl, rfl⟩
    | equal hu => exact .bind_intro hu fun _ => takes_ok.2 ⟨rfl, rfl⟩
    | within hu =>
      refine .bind_intro (takes_scopeTarget_iff.2 (.inl ⟨_, rfl, hu⟩)) fun _ => ?_
      exact takes_ok.2 ⟨rfl, rfl⟩
    | withinAny hslot hus =>
      have htarget := takes_scopeTarget_iff.2 (.inr ⟨_, _, hslot, rfl, rfl, hus⟩)
      exact .bind_intro htarget fun _ => takes_ok.2 ⟨rfl, rfl⟩
    | is hname hin =>
      refine .bind_intro hname fun _ => ?_
      simp only [accept?_eq_none_iff.2 hin]
      exact takes_ok.2 ⟨rfl, rfl⟩
    | isIn hname hu =>
      refine .bind_intro hname fun _ => ?_
      simp only [accept?_cons_self]
      exact .bind_intro hu fun _ => takes_ok.2 ⟨rfl, rfl⟩

theorem takes_scopeClause_iff {slot : Slot} {ts rest : List Kind} {c : ScopeConstraint} :
    Takes (scopeClause slot ts) c rest ↔
      ∃ ts₁, ts = .ident slot.word :: ts₁ ∧ ReadsConstraint slot ts₁ c rest := by
  constructor
  · intro h
    obtain ⟨_, ts₁, h₁, hword, h⟩ := h.bind
    obtain rfl := takes_keyword_iff.1 hword
    obtain ⟨c, ts₂, h₂, hc, h⟩ := h.bind
    obtain ⟨rfl, rfl⟩ := takes_ok.1 h
    exact ⟨ts₁, rfl, takes_scopeConstraint_iff.1 hc⟩
  · rintro ⟨ts₁, rfl, hc⟩
    refine .bind_intro (takes_keyword_iff.2 rfl) fun _ => ?_
    exact .bind_intro (takes_scopeConstraint_iff.2 hc) fun _ => takes_ok.2 ⟨rfl, rfl⟩

/-- The three clauses of a scope, with commas between them. -/
inductive ReadsScope : List Kind → Scope → List Kind → Prop where
  | intro {ts₁ ts₂ ts₃ rest s}
      (hprincipal : ReadsConstraint .principal ts₁ s.principal
        (.symbol .comma :: .ident Slot.action.word :: ts₂))
      (haction : ReadsConstraint .action ts₂ s.action
        (.symbol .comma :: .ident Slot.resource.word :: ts₃))
      (hresource : ReadsConstraint .resource ts₃ s.resource rest) :
    ReadsScope (.ident Slot.principal.word :: ts₁) s rest

theorem takes_scope_iff {ts rest : List Kind} {s : Scope} :
    Takes (scope ts) s rest ↔ ReadsScope ts s rest := by
  constructor
  · intro h
    obtain ⟨principal, ts₁, h₁, hclause, h⟩ := h.bind
    obtain ⟨us₁, rfl, hprincipal⟩ := takes_scopeClause_iff.1 hclause
    obtain ⟨_, ts₂, h₂, hcomma, h⟩ := h.bind
    obtain rfl := takes_symbol_iff.1 hcomma
    obtain ⟨action, ts₃, h₃, hclause, h⟩ := h.bind
    obtain ⟨us₂, rfl, haction⟩ := takes_scopeClause_iff.1 hclause
    obtain ⟨_, ts₄, h₄, hcomma, h⟩ := h.bind
    obtain rfl := takes_symbol_iff.1 hcomma
    obtain ⟨resource, ts₅, h₅, hclause, h⟩ := h.bind
    obtain ⟨us₃, rfl, hresource⟩ := takes_scopeClause_iff.1 hclause
    obtain ⟨rfl, rfl⟩ := takes_ok.1 h
    exact .intro hprincipal haction hresource
  · rintro ⟨hprincipal, haction, hresource⟩
    refine .bind_intro (takes_scopeClause_iff.2 ⟨_, rfl, hprincipal⟩) fun _ => ?_
    refine .bind_intro (takes_symbol_iff.2 rfl) fun _ => ?_
    refine .bind_intro (takes_scopeClause_iff.2 ⟨_, rfl, haction⟩) fun _ => ?_
    refine .bind_intro (takes_symbol_iff.2 rfl) fun _ => ?_
    exact .bind_intro (takes_scopeClause_iff.2 ⟨_, rfl, hresource⟩) fun _ =>
      takes_ok.2 ⟨rfl, rfl⟩

/-! ## Annotations -/

/-- Annotations behind those that were read, with all of them. -/
inductive ReadsAnnotations : Annotations → List Kind → Annotations → List Kind → Prop where
  | stop {acc rest} (hat : rest.head? ≠ some (.symbol .at)) : ReadsAnnotations acc rest acc rest
  | valued {acc notes key raw value ts rest} (hd : Decodes raw value)
      (h : ReadsAnnotations (acc.insert key value) ts notes rest) :
    ReadsAnnotations acc (.symbol .at :: .ident key :: .symbol .leftParen :: .string raw ::
      .symbol .rightParen :: ts) notes rest
  | bare {acc notes key ts rest} (hparen : ts.head? ≠ some (.symbol .leftParen))
      (h : ReadsAnnotations (acc.insert key "") ts notes rest) :
    ReadsAnnotations acc (.symbol .at :: .ident key :: ts) notes rest

theorem ReadsAnnotations.length_le {acc notes : Annotations} {ts rest : List Kind}
    (h : ReadsAnnotations acc ts notes rest) : rest.length ≤ ts.length := by
  induction h with
  | stop => exact le_rfl
  | valued _ _ ih | bare _ _ ih =>
    simp only [List.length_cons]
    omega

theorem takes_annotations_iff {acc notes : Annotations} {ts rest : List Kind} :
    Takes (annotations acc ts) notes rest ↔ ReadsAnnotations acc ts notes rest := by
  constructor
  · intro h
    induction hn : ts.length using Nat.strongRecOn generalizing acc ts with
    | ind n ih =>
      rw [annotations] at h
      split at h
      · rename_i hat
        obtain ⟨rfl, rfl⟩ := takes_ok.1 h
        exact .stop (accept?_eq_none_iff.1 hat)
      · rename_i ts₁ h₁ hat
        obtain ⟨key, ts₂, h₂, hkey, h⟩ := h.bind
        obtain rfl := takes_ident_iff.1 hkey
        have hts : ts = .symbol .at :: .ident key :: ts₂ := Taken.accept?_eq_some_iff.1 hat
        subst hts
        simp only [List.length_cons] at hn
        dsimp only at h
        split at h
        · rename_i ts₃ h₃ hopen
          obtain ⟨value, ts₄, h₄, hvalue, h⟩ := h.bind
          obtain ⟨raw, rfl, hraw⟩ := takes_string_iff.1 hvalue
          have hts : ts₂ = .symbol .leftParen :: .string raw :: ts₄ :=
            Taken.accept?_eq_some_iff.1 hopen
          subst hts
          obtain ⟨_, ts₅, h₅, hclose, h⟩ := h.bind
          obtain rfl := takes_symbol_iff.1 hclose
          obtain ⟨notes, ts₆, h₆, hnotes, h⟩ := h.bind
          obtain ⟨rfl, rfl⟩ := takes_ok.1 h
          simp only [List.length_cons] at hn
          exact .valued hraw (ih ts₅.length (by omega) hnotes rfl)
        · rename_i hopen
          obtain ⟨notes, ts₃, h₃, hnotes, h⟩ := h.bind
          obtain ⟨rfl, rfl⟩ := takes_ok.1 h
          exact .bare (accept?_eq_none_iff.1 hopen) (ih ts₂.length (by omega) hnotes rfl)
  · intro h
    induction h with
    | stop hat =>
      rw [annotations]
      simp only [accept?_eq_none_iff.2 hat]
      exact takes_ok.2 ⟨rfl, rfl⟩
    | valued hd _ ih =>
      rw [annotations]
      simp only [accept?_cons_self]
      refine .bind_intro (takes_ident_iff.2 rfl) fun _ => ?_
      simp only [accept?_cons_self]
      refine .bind_intro (takes_string_iff.2 ⟨_, rfl, hd⟩) fun _ => ?_
      refine .bind_intro (takes_symbol_iff.2 rfl) fun _ => ?_
      exact .bind_intro ih fun _ => takes_ok.2 ⟨rfl, rfl⟩
    | bare hparen _ ih =>
      rw [annotations]
      simp only [accept?_cons_self]
      refine .bind_intro (takes_ident_iff.2 rfl) fun _ => ?_
      simp only [accept?_eq_none_iff.2 hparen]
      exact .bind_intro ih fun _ => takes_ok.2 ⟨rfl, rfl⟩

/-! ## Conditions -/

/-- Conditions behind the scope, with room for `n` levels in each body. -/
inductive ReadsConditions (n : Nat) : List Kind → List Condition → List Kind → Prop where
  | stop {rest} (hstop : ∀ k ∈ rest.head?, conditionKind? k = none) : ReadsConditions n rest [] rest
  | cons {k kind ts ts₁ body cs rest} (hk : conditionKind? k = some kind)
      (hbody : Reads .expr n ts (.expr body) (.symbol .rightBrace :: ts₁))
      (hcs : ReadsConditions n ts₁ cs rest) :
    ReadsConditions n (k :: .symbol .leftBrace :: ts) (⟨kind, body⟩ :: cs) rest

theorem takes_conditions_iff {bound : Nat} {ts rest : List Kind} {cs : List Condition} :
    Takes (conditions bound ts) cs rest ↔ ReadsConditions bound ts cs rest := by
  constructor
  · intro h
    -- Each round leaves fewer tokens, so the induction is on their number.
    induction hn : ts.length using Nat.strongRecOn generalizing ts cs with
    | ind n ih =>
      rw [conditions.eq_def] at h
      split at h
      · obtain ⟨rfl, rfl⟩ := takes_ok.1 h
        exact .stop (by simp)
      · rename_i k us
        split at h
        · rename_i hk
          obtain ⟨rfl, rfl⟩ := takes_ok.1 h
          exact .stop (by simpa [Taken.nothing] using hk)
        · rename_i kind hk
          obtain ⟨_, ts₁, h₁, hopen, h⟩ := h.bind
          obtain rfl := takes_symbol_iff.1 hopen
          obtain ⟨body, ts₂, h₂, hbody, h⟩ := h.bind
          obtain ⟨_, ts₃, h₃, hclose, h⟩ := h.bind
          obtain rfl := takes_symbol_iff.1 hclose
          obtain ⟨cs', ts₄, h₄, hcs, h⟩ := h.bind
          obtain ⟨rfl, rfl⟩ := takes_ok.1 h
          refine .cons hk (Reader.Takes.reads (r := .expr) (t := .expr body) hbody)
            (ih ts₃.length ?_ hcs rfl)
          simp only [List.length_cons] at *
          omega
  · intro h
    induction h with
    | @stop rest hstop =>
      rw [conditions.eq_def]
      cases rest with
      | nil => exact takes_ok.2 ⟨rfl, rfl⟩
      | cons k us =>
        simp only [hstop k rfl]
        exact takes_ok.2 ⟨rfl, rfl⟩
    | @cons k kind ts ts₁ body cs rest hk hbody _ ih =>
      have hbody : Takes (expr bound 0 ts) body (.symbol .rightBrace :: ts₁) :=
        hbody.takes (Nat.sub_zero bound)
      rw [conditions.eq_def]
      simp only [hk]
      refine .bind_intro (takes_symbol_iff.2 rfl) fun _ => ?_
      refine .bind_intro hbody fun _ => ?_
      refine .bind_intro (takes_symbol_iff.2 rfl) fun _ => ?_
      exact .bind_intro ih fun _ => takes_ok.2 ⟨rfl, rfl⟩

theorem ReadsConditions.body {n : Nat} {ts rest : List Kind} {cs : List Condition}
    (h : ReadsConditions n ts cs rest) :
    ∀ c ∈ cs, ∃ us us', Reads .expr n us (.expr c.body) us' := by
  induction h with
  | stop => simp
  | cons _ hbody _ ih =>
    intro c hc
    obtain rfl | hc := List.mem_cons.1 hc
    · exact ⟨_, _, hbody⟩
    · exact ih c hc

/-! ## Policies -/

theorem takes_effect_iff {ts rest : List Kind} {e : Effect} :
    Takes (effect ts) e rest ↔ ts = .ident e.text :: rest := by
  constructor
  · intro h
    unfold effect at h
    split at h
    · obtain ⟨rfl, rfl⟩ := takes_ok.1 h
      rfl
    · obtain ⟨rfl, rfl⟩ := takes_ok.1 h
      rfl
    · exact absurd h not_takes_expected
  · rintro rfl
    cases e <;> exact takes_ok.2 ⟨rfl, rfl⟩

/-- A policy with its semicolon. Its id is not among the tokens. -/
inductive ReadsPolicy (bound : Nat) (p : Policy) : List Kind → List Kind → Prop where
  | intro {ts ts₁ ts₂ rest}
      (hnotes : ReadsAnnotations {} ts p.annotations
        (.ident p.effect.text :: .symbol .leftParen :: ts₁))
      (hscope : ReadsScope ts₁ p.scope (.symbol .rightParen :: ts₂))
      (hconditions : ReadsConditions bound ts₂ p.conditions (.symbol .semicolon :: rest)) :
    ReadsPolicy bound p ts rest

theorem takes_policy_iff {bound index : Nat} {ts rest : List Kind} {p : Policy} :
    Takes (policy bound index ts) p rest ↔ p.id = .ofIndex index ∧ ReadsPolicy bound p ts rest := by
  constructor
  · intro h
    obtain ⟨notes, ts₁, h₁, hnotes, h⟩ := h.bind
    obtain ⟨eff, ts₂, h₂, heff, h⟩ := h.bind
    obtain rfl := takes_effect_iff.1 heff
    obtain ⟨_, ts₃, h₃, hopen, h⟩ := h.bind
    obtain rfl := takes_symbol_iff.1 hopen
    obtain ⟨sc, ts₄, h₄, hscope, h⟩ := h.bind
    obtain ⟨_, ts₅, h₅, hclose, h⟩ := h.bind
    obtain rfl := takes_symbol_iff.1 hclose
    obtain ⟨cs, ts₆, h₆, hcs, h⟩ := h.bind
    obtain ⟨_, ts₇, h₇, hend, h⟩ := h.bind
    obtain rfl := takes_symbol_iff.1 hend
    obtain ⟨rfl, rfl⟩ := takes_ok.1 h
    exact ⟨rfl, .intro (takes_annotations_iff.1 hnotes) (takes_scope_iff.1 hscope)
      (takes_conditions_iff.1 hcs)⟩
  · rintro ⟨hid, hnotes, hscope, hconditions⟩
    refine .bind_intro (takes_annotations_iff.2 hnotes) fun _ => ?_
    refine .bind_intro (takes_effect_iff.2 rfl) fun _ => ?_
    refine .bind_intro (takes_symbol_iff.2 rfl) fun _ => ?_
    refine .bind_intro (takes_scope_iff.2 hscope) fun _ => ?_
    refine .bind_intro (takes_symbol_iff.2 rfl) fun _ => ?_
    refine .bind_intro (takes_conditions_iff.2 hconditions) fun _ => ?_
    refine .bind_intro (takes_symbol_iff.2 rfl) fun _ => takes_ok.2 ⟨?_, rfl⟩
    rw [← hid]
    rfl

/-- Policies up to the end of the tokens, with ids that count them from the given index. -/
inductive ReadsPolicies (bound : Nat) : Nat → List Kind → List Policy → Prop where
  | nil {index} : ReadsPolicies bound index [] []
  | cons {index ts rest p ps} (hid : p.id = .ofIndex index) (hp : ReadsPolicy bound p ts rest)
      (hps : ReadsPolicies bound (index + 1) rest ps) :
    ReadsPolicies bound index ts (p :: ps)

theorem policies_eq_ok_iff {bound index : Nat} {ts : List Kind} {ps : List Policy} :
    policies bound index ts = .ok ps ↔ ReadsPolicies bound index ts ps := by
  constructor
  · intro h
    induction hn : ts.length using Nat.strongRecOn generalizing index ts ps with
    | ind n ih =>
      rw [policies] at h
      split at h
      · rename_i hts
        cases h
        exact hts ▸ .nil
      · obtain ⟨⟨p, rest, hlt⟩, hp, h⟩ := bind_eq_ok_iff.1 h
        obtain ⟨qs, hqs, h⟩ := bind_eq_ok_iff.1 h
        cases h
        obtain ⟨hid, hread⟩ := takes_policy_iff.1 ⟨hlt, hp⟩
        exact .cons hid hread (ih _ (hn ▸ hlt) hqs rfl)
  · intro h
    induction h with
    | nil =>
      rw [policies]
      rfl
    | @cons index ts rest p ps hid hp _ ih =>
      obtain ⟨hlt, hp⟩ := takes_policy_iff.2 ⟨hid, hp⟩
      have hne : ts ≠ [] := List.length_pos_iff.1 (Nat.zero_lt_of_lt hlt)
      rw [policies, if_neg hne]
      exact bind_eq_ok_iff.2 ⟨_, hp, bind_eq_ok_iff.2 ⟨_, ih, rfl⟩⟩

theorem ReadsPolicies.conditions {bound index : Nat} {ts : List Kind} {ps : List Policy}
    (h : ReadsPolicies bound index ts ps) :
    ∀ p ∈ ps, ∃ us us', ReadsConditions bound us p.conditions us' := by
  induction h with
  | nil => simp
  | cons _ hp _ ih =>
    obtain ⟨-, -, hconditions⟩ := hp
    exact List.forall_mem_cons.2 ⟨⟨_, _, hconditions⟩, ih⟩

end Parse

/-! ## Texts -/

theorem Policy.parseAll_eq_ok_iff {bound : Nat} {text : String} {ps : List Policy} :
    Policy.parseAll bound text = .ok ps ↔
      ∃ ts, Tokens.ofText text = .ok ts ∧ Parse.policies bound 0 ts.kinds = .ok ps :=
  Parse.run_eq_ok_iff

theorem Policy.parseAll_eq_ok_of_kinds {bound : Nat} {text : String} {kinds : List Kind}
    {ps : List Policy} (hkinds : (Tokens.ofText text).map Tokens.kinds = .ok kinds)
    (hps : Parse.policies bound 0 kinds = .ok ps) : Policy.parseAll bound text = .ok ps := by
  obtain ⟨ts, hts, rfl⟩ := Parse.map_eq_ok_iff.1 hkinds
  exact Policy.parseAll_eq_ok_iff.2 ⟨ts, hts, hps⟩

theorem Policy.reads_of_mem_bodies {bound : Nat} {text : String} {ps : List Policy}
    (h : Policy.parseAll bound text = .ok ps) :
    ∀ e ∈ Policy.bodies ps, ∃ ts rest, Parse.Reads .expr bound ts (.expr e) rest := by
  obtain ⟨ts, -, hts⟩ := Policy.parseAll_eq_ok_iff.1 h
  intro e he
  obtain ⟨p, hp, he⟩ := List.mem_flatMap.1 he
  obtain ⟨c, hc, rfl⟩ := List.mem_map.1 he
  obtain ⟨us, us', hcs⟩ := (Parse.policies_eq_ok_iff.1 hts).conditions p hp
  exact hcs.body c hc

end AccessPolicy

import AccessPolicy.Proofs.Parse.Derivation
import AccessPolicy.Proofs.Parse.Nesting
import AccessPolicy.Proofs.Policy.Statements

/-! # How deep condition bodies nest

The bodies of the conditions are what stands inside the outermost curly brackets of a policy text,
since no other part of a policy has such brackets. Each of them is read with the whole bound as its
room, so its brackets and its conditional expressions nest no deeper than that. -/

namespace AccessPolicy

/-- What the bound means for the tokens of a condition body: they are a phrase that means the body,
and neither brackets nor conditional expressions nest deeper than the bound. -/
structure BodyWithin (bound : Nat) (us : List Kind) (body : Expr) : Prop where
  phrase : ∃ rest, Parse.Derives .expr us (.expr body) (.symbol .rightBrace :: rest)
  brackets : ∀ vs, vs <+: us → ∃ opened, unclosed vs = some opened ∧ opened.length ≤ bound
  closed : unclosed us = some []
  ifs : ∀ run, body.NestedIfs run → run.length ≤ bound

namespace Parse

variable {ts rest : List Kind}

/-! ## Conditions -/

variable {bound : Nat}

theorem Reads.bodyWithin {body : Expr}
    (h : Reads .expr bound ts (.expr body) (.symbol .rightBrace :: rest)) :
    ∃ us, ts = us ++ .symbol .rightBrace :: rest ∧ BodyWithin bound us body := by
  obtain ⟨us, rfl, hphrase⟩ := h.phrase
  obtain ⟨us', hus, hnested⟩ := h.bracketsWithin
  obtain rfl := List.append_cancel_right hus
  exact ⟨us, rfl, ⟨_, hphrase⟩, fun vs => hnested.unclosed_prefix, hnested.closed [],
    fun run hrun => hrun.length_le h.ifsWithin⟩

theorem ReadsConditions.bodies {cs : List Condition} {l : List (List Kind)}
    (h : ReadsConditions bound ts cs rest) (hl : Bodies rest l) :
    ∃ spans, Bodies ts (spans ++ l) ∧
      List.Forall₂ (BodyWithin bound) spans (cs.map Condition.body) := by
  induction h with
  | stop => exact ⟨[], hl, .nil⟩
  | @cons k kind ts ts₁ body cs rest hk hbody _ ih =>
    obtain ⟨spans, hspans, hwithin⟩ := ih hl
    obtain ⟨us, rfl, hus⟩ := hbody.bodyWithin
    have hword : NoBrace k := by
      constructor
      all_goals
        rintro rfl
        cases hk
    have hbody := Bodies.body hus.closed hspans
    exact ⟨us :: spans, .outside hword hbody, .cons hus hwithin⟩

theorem ReadsPolicy.bodies {p : Policy} {l : List (List Kind)} (h : ReadsPolicy bound p ts rest)
    (hl : Bodies rest l) :
    ∃ spans, Bodies ts (spans ++ l) ∧
      List.Forall₂ (BodyWithin bound) spans (p.conditions.map Condition.body) := by
  obtain ⟨hnotes, hscope, hconditions⟩ := h
  obtain ⟨spans, hspans, hwithin⟩ := hconditions.bodies (.outside (by decide) hl)
  have hhead := hscope.plain.sameBodies _ (.outside (by decide) hspans)
  exact ⟨spans, hnotes.plain.sameBodies _ (.outside (noBrace_ident _) (.outside (by decide) hhead)),
    hwithin⟩

theorem ReadsPolicies.bodies {index : Nat} {ps : List Policy}
    (h : ReadsPolicies bound index ts ps) :
    ∃ spans, Bodies ts spans ∧ List.Forall₂ (BodyWithin bound) spans (Policy.bodies ps) := by
  induction h with
  | nil => exact ⟨[], .nil, .nil⟩
  | cons _ hp _ ih =>
    obtain ⟨spans, hspans, hwithin⟩ := ih
    obtain ⟨spans', hspans', hwithin'⟩ := hp.bodies hspans
    exact ⟨spans' ++ spans, hspans', List.rel_append hwithin' hwithin⟩

end Parse

/-- **Condition bodies nest within the bound.** The bodies of an accepted text are what stands
inside its outermost curly brackets, in this order. In none of them does any prefix of the tokens
have more unclosed brackets than the bound, and in none of them do conditional expressions stand
deeper in each other than the bound. -/
theorem Policy.parseAll_nesting {bound : Nat} {text : String} {ps : List Policy}
    (h : Policy.parseAll bound text = .ok ps) :
    ∃ ts spans, Tokens.ofText text = .ok ts ∧ (∀ l, Bodies ts.kinds l ↔ l = spans) ∧
      List.Forall₂ (BodyWithin bound) spans (Policy.bodies ps) := by
  obtain ⟨ts, hts, hps⟩ := Policy.parseAll_eq_ok_iff.1 h
  obtain ⟨spans, hspans, hwithin⟩ := (Parse.policies_eq_ok_iff.1 hps).bodies
  refine ⟨ts, spans, hts, fun l => ⟨fun hl => hl.unique hspans, ?_⟩, hwithin⟩
  rintro rfl
  exact hspans

/-- A set in a set has as many open brackets as the bound has levels. -/
theorem Policy.parseAll_nesting_sets :
    let text := "permit(principal, action, resource) when \x7b[[]]\x7d;"
    let body := [Kind.symbol .leftBracket, .symbol .leftBracket, .symbol .rightBracket,
      .symbol .rightBracket]
    unclosed (body.take 2) = some [.square, .square] ∧
      ∃ ps, Policy.parseAll 2 text = .ok ps ∧
        List.Forall₂ (BodyWithin 2) [body] (Policy.bodies ps) := by
  intro text body
  have hparse : (Policy.parseAll 2 text).isOk = true := by decide +kernel
  obtain ⟨ps, hps⟩ := Parse.exists_eq_ok hparse
  obtain ⟨ts, spans, hts, hspans, hwithin⟩ := Policy.parseAll_nesting hps
  have hkinds : (Tokens.ofText text).map Tokens.kinds = .ok [.ident "permit",
      .symbol .leftParen, .ident "principal", .symbol .comma, .ident "action", .symbol .comma,
      .ident "resource", .symbol .rightParen, .ident "when", .symbol .leftBrace,
      .symbol .leftBracket, .symbol .leftBracket, .symbol .rightBracket, .symbol .rightBracket,
      .symbol .rightBrace, .symbol .semicolon] := by decide +kernel
  have hbodies : Bodies ts.kinds [body] := by
    rw [hts] at hkinds
    rw [Except.ok.inj hkinds]
    iterate 9 refine .outside (by decide) ?_
    exact @Bodies.body body _ _ rfl (.outside (by decide) .nil)
  rw [← (hspans _).1 hbodies] at hwithin
  exact ⟨rfl, ps, hps, hwithin⟩

end AccessPolicy

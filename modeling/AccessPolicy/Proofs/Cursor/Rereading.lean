import AccessPolicy.Proofs.Cursor.Lockstep
import AccessPolicy.Proofs.Cursor.Returns

/-! # Reading again

A text is read again in another layout, or under another bound. The parser with a cursor runs in
lockstep both times, and it gives what the readers give, so these agree as well. Other white space
or other comments move an error together with its token and change nothing else; a smaller bound may
cut a reading off and changes nothing else. -/

namespace AccessPolicy

/-- The same value, or the same fault at the same token of two texts. -/
inductive SameButPlace {α : Type} (ts us : Tokens) :
    Except ParseError α → Except ParseError α → Prop where
  | ok (a : α) : SameButPlace ts us (.ok a) (.ok a)
  | error {p q : Position} (fault : ParseFault) (h : ts.SamePlace us p q) :
      SameButPlace ts us (.error ⟨p, fault⟩) (.error ⟨q, fault⟩)

/-- In one text, the same token has one place. -/
theorem Tokens.SamePlace.eq {ts : Tokens} {p q : Position} (h : ts.SamePlace ts p q) : p = q := by
  obtain ⟨n, k, hp, hq⟩ := h
  exact congrArg Prod.snd (Option.some.inj (hp.symm.trans hq))

theorem SameButPlace.eq {α : Type} {ts : Tokens} {x y : Except ParseError α}
    (h : SameButPlace ts ts x y) : x = y := by
  cases h with
  | ok a => rfl
  | error fault h => rw [h.eq]

namespace Cursor

variable {α : Type} {i j : Input}

/-! ## Whole texts -/

/-- A parser of whole texts runs in lockstep on inputs that are alike. -/
def StartsAlike (p : Input → Calls → Run α) : Prop :=
  ∀ (i j : Input) (n : Nat), i.Alike j → RunsAlike i j Eq (p i (within i n)) (p j (within j n))

theorem allPolicies_alike : StartsAlike allPolicies := fun _ _ n h =>
  policyLoop_alike h (within_alike h n) []

theorem wholeExpr_alike : StartsAlike wholeExpr := fun _ _ n h =>
  (expr_alike h (within_alike h n)).next fun _ => (endOfInput_alike h).next fun _ => .pure rfl

theorem wholeUid_alike : StartsAlike wholeUid := fun _ _ n h =>
  (uid_alike h (within_alike h n)).next fun _ => (endOfInput_alike h).next fun _ => .pure rfl

theorem State.start_inText (input : Input) : ({} : State).InText input := by
  simp [State.InText, Input.tokens]

theorem Input.Alike.nesting (h : i.Alike j) : i.nesting = j.nesting := by
  rw [Input.nesting, Input.nesting, h.length_tokens]

/-- What a parser returns on a text that has tokens. -/
theorem Returns.exec_eq {bound : Nat} {text : String} {p : Input → Calls → Run α}
    {r : Except ParseError α} {ts : Tokens} (h : Returns bound text p r)
    (htext : Tokens.ofText text = .ok ts) :
    ∃ s, exec (p ⟨ts, bound⟩ (within ⟨ts, bound⟩ (Input.nesting ⟨ts, bound⟩))) {} =
      some (r.mapError .failed, s) := by
  cases h with
  | refused herror => cases herror.symm.trans htext
  | read hts hinput hread =>
    obtain rfl := Except.ok.inj (hts.symm.trans htext)
    subst hinput
    obtain ⟨s, hs, -⟩ := hread _ le_rfl
    exact ⟨s, hs⟩

/-- Two readings of tokens of the same kinds differ in the places of errors at most, or the first
one reaches its bound, which is the smaller one. -/
theorem Returns.alike {bound bound' : Nat} {a b : String} {p : Input → Calls → Run α}
    {r r' : Except ParseError α} {ts us : Tokens} (hp : StartsAlike p)
    (hr : Returns bound a p r) (hr' : Returns bound' b p r') (ha : Tokens.ofText a = .ok ts)
    (hb : Tokens.ofText b = .ok us) (h : Input.Alike ⟨ts, bound⟩ ⟨us, bound'⟩) :
    SameButPlace ts us r r' ∨ bound < bound' ∧ ∃ place, r = .error ⟨place, .tooDeep bound⟩ := by
  obtain ⟨s, hs⟩ := hr.exec_eq ha
  obtain ⟨s', hs'⟩ := hr'.exec_eq hb
  have hlock := hp _ _ (Input.nesting ⟨ts, bound⟩) h {} (State.start_inText _)
  rw [hs, h.nesting, hs'] at hlock
  cases r with
  | ok x =>
    cases r' with
    | ok y =>
      cases hlock with
      | value hxy _ => exact .inl (hxy ▸ .ok x)
    | error e => cases hlock
  | error e =>
    obtain ⟨place, fault⟩ := e
    cases r' with
    | ok y =>
      cases hlock with
      | cutOff hlt => exact .inr ⟨hlt, place, rfl⟩
    | error e' =>
      obtain ⟨place', fault'⟩ := e'
      cases hlock with
      | failed hplace => exact .inl (.error fault hplace)
      | cutOff hlt => exact .inr ⟨hlt, place, rfl⟩

/-- Under one bound, readings of tokens of the same kinds differ in the places of errors at most. -/
theorem Returns.same {bound : Nat} {a b : String} {p : Input → Calls → Run α}
    {r r' : Except ParseError α} {ts us : Tokens} (hp : StartsAlike p)
    (hr : Returns bound a p r) (hr' : Returns bound b p r') (ha : Tokens.ofText a = .ok ts)
    (hb : Tokens.ofText b = .ok us) (hkinds : ts.kinds = us.kinds) : SameButPlace ts us r r' :=
  (hr.alike hp hr' ha hb ⟨hkinds, le_rfl⟩).resolve_right fun h => Nat.lt_irrefl _ h.1

end Cursor

/-! ## Another layout -/

/-- **Layout has no meaning.** Two texts whose tokens are of the same kinds are read alike, under
every bound and by every entry point: to the same value, or to the same fault at the same token. And
so does every procedure of the parser with a cursor, from every place in the texts. -/
theorem Policy.parseAll_layout {a b : String} {ts us : Tokens} (ha : Tokens.ofText a = .ok ts)
    (hb : Tokens.ofText b = .ok us) (hkinds : ts.kinds = us.kinds) :
    (∀ bound, SameButPlace ts us (Policy.parseAll bound a) (Policy.parseAll bound b)) ∧
    SameButPlace ts us (Expr.parse a) (Expr.parse b) ∧
    SameButPlace ts us (Uid.parse a) (Uid.parse b) ∧
    ∀ bound n, Cursor.Calls.Alike ⟨ts, bound⟩ ⟨us, bound⟩ (Cursor.within ⟨ts, bound⟩ n)
      (Cursor.within ⟨us, bound⟩ n) := by
  have halike (bound : Nat) : Cursor.Input.Alike ⟨ts, bound⟩ ⟨us, bound⟩ := ⟨hkinds, le_rfl⟩
  refine ⟨fun bound => ?_, ?_, ?_, fun bound n => Cursor.within_alike (halike bound) n⟩
  · exact (Cursor.allPolicies_returns bound a).same Cursor.allPolicies_alike
      (Cursor.allPolicies_returns bound b) ha hb hkinds
  · exact (Cursor.wholeExpr_returns a).same Cursor.wholeExpr_alike
      (Cursor.wholeExpr_returns b) ha hb hkinds
  · exact (Cursor.wholeUid_returns a).same Cursor.wholeUid_alike
      (Cursor.wholeUid_returns b) ha hb hkinds

/-- A comment and a line break inside a reference whose id is no string. -/
theorem Policy.parseAll_layout_comment :
    let ts : Tokens := ⟨[⟨.ident "A", ⟨1, 1⟩⟩, ⟨.symbol .colonColon, ⟨1, 2⟩⟩, ⟨.int 1, ⟨1, 4⟩⟩],
      ⟨1, 5⟩⟩
    let us : Tokens := ⟨[⟨.ident "A", ⟨1, 1⟩⟩, ⟨.symbol .colonColon, ⟨2, 1⟩⟩, ⟨.int 1, ⟨2, 4⟩⟩],
      ⟨2, 5⟩⟩
    (Tokens.ofText "A::1" = .ok ts ∧ Tokens.ofText "A // type\n:: 1" = .ok us) ∧
      SameButPlace ts us (Uid.parse "A::1") (Uid.parse "A // type\n:: 1") := by
  intro ts us
  have ha : Tokens.ofText "A::1" = .ok ts := by decide +kernel
  have hb : Tokens.ofText "A // type\n:: 1" = .ok us := by decide +kernel
  exact ⟨⟨ha, hb⟩, (parseAll_layout ha hb rfl).2.2.1⟩

/-! ## Another bound -/

/-- **A bound cuts off and does nothing else.** Under the smaller of two bounds a text is read as
under the larger one, to the same policies or the same error, or it nests too deep for the smaller
bound. So what the smaller bound accepts is accepted by the larger one, with the same policies; and
what the larger one accepts, the smaller one reads to the same policies or finds too deep. -/
theorem Policy.parseAll_bound_le {d d' : Nat} (h : d ≤ d') (text : String) :
    (Policy.parseAll d text = Policy.parseAll d' text ∨
      ∃ e, Policy.parseAll d text = .error e ∧
        e.fault.message = "expression nesting exceeds the maximum depth of " ++ toString d) ∧
    ∀ ps, Policy.parseAll d text = .ok ps → Policy.parseAll d' text = .ok ps := by
  have hcases : Policy.parseAll d text = Policy.parseAll d' text ∨
      ∃ place, Policy.parseAll d text = .error ⟨place, .tooDeep d⟩ := by
    cases htext : Tokens.ofText text with
    | error e =>
      have herror (bound : Nat) : Policy.parseAll bound text = .error e := by
        rw [Policy.parseAll, Parse.run, htext]
        rfl
      exact .inl ((herror d).trans (herror d').symm)
    | ok ts =>
      have halike := (Cursor.allPolicies_returns d text).alike Cursor.allPolicies_alike
        (Cursor.allPolicies_returns d' text) htext htext ⟨rfl, h⟩
      exact halike.imp SameButPlace.eq And.right
  obtain heq | ⟨place, hdeep⟩ := hcases
  · exact ⟨.inl heq, fun ps hps => heq ▸ hps⟩
  · refine ⟨.inr ⟨_, hdeep, rfl⟩, fun ps hps => ?_⟩
    rw [hdeep] at hps
    cases hps

/-- An operator that needs a second level. -/
theorem Policy.parseAll_bound_le_not :
    let text := "permit(principal,action,resource)when\x7b!true\x7d;"
    (∃ ps, Policy.parseAll 2 text = .ok ps ∧ Policy.parseAll 3 text = .ok ps) ∧
      ∃ e, Policy.parseAll 1 text = .error e ∧
        e.fault.message = "expression nesting exceeds the maximum depth of " ++ toString 1 := by
  intro text
  have htwo : (Policy.parseAll 2 text).isOk = true := by decide +kernel
  have hone : (Policy.parseAll 1 text).isOk = false := by decide +kernel
  constructor
  · obtain ⟨ps, hps⟩ := Parse.exists_eq_ok htwo
    exact ⟨ps, hps, (parseAll_bound_le (by decide) text).2 ps hps⟩
  · refine (parseAll_bound_le (show 1 ≤ 2 by decide) text).1.resolve_left fun heq => ?_
    rw [heq, htwo] at hone
    cases hone

end AccessPolicy

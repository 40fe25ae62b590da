import AccessPolicy.Proofs.Parse.Failure
import AccessPolicy.Proofs.Token.Offset

/-! # Errors point into the text

Every error stands at an offset of the text: where the lexeme that is rejected starts, where a token
starts that the fault is about, or at the end of the text. -/

namespace AccessPolicy

/-- What stands at the offset of an error. -/
inductive ParseError.PointsAt (e : ParseError) (cs : List Char) (k : Nat) : Prop where
  | lexeme (h : Lexer.StartsAt cs k (.error e.fault))
  | token {kind} (h : Lexer.StartsAt cs k (.ok kind)) (hfault : e.fault.Concerns (some kind))
  | finish (h : k = cs.length) (hfault : e.fault.Concerns none)

namespace Parse

variable {α : Type}

/-- A reader that fails at the tokens it is given fails at an offset of the text. -/
theorem run_error {read : List Kind → Except Failure α} (hread : ∀ ts, FailsAt ts (read ts))
    {text : String} {e : ParseError} (h : run read text = .error e) :
    ∃ k, e.position.IsAt text.toList k ∧ e.PointsAt text.toList k := by
  unfold run at h
  cases hts : Tokens.ofText text with
  | error e' =>
    rw [hts] at h
    cases h
    obtain ⟨k, hk, hposition⟩ := Lexer.tokensAt_error_startsAt hts
    exact ⟨k, hposition ▸ Position.isAt_afterAll hk.lt.le, .lexeme hk⟩
  | ok ts =>
    obtain ⟨htokens, hfinish⟩ := Lexer.tokensAt_ok_startsAt hts
    rw [hts] at h
    cases hfailure : read ts.kinds with
    | ok a =>
      simp only [bind, Except.bind, hfailure] at h
      cases h
    | error f =>
      simp only [bind, Except.bind, hfailure] at h
      cases h
      obtain ⟨us, hus, hremaining, hfault⟩ := hread _ f hfailure
      rw [hremaining]
      rcases Tokens.positionAt_of_suffix hus with ⟨hnone, hp⟩ | ⟨t, ht, hsome, hp⟩
      · have hat := Position.isAt_afterAll (le_refl text.toList.length)
        rw [List.take_length, ← hfinish, ← hp] at hat
        exact ⟨_, hat, .finish rfl (hnone ▸ hfault)⟩
      · obtain ⟨k, hk, hposition⟩ := htokens t ht
        have hat := Position.isAt_afterAll hk.lt.le
        rw [← hposition, ← hp] at hat
        exact ⟨k, hat, .token hk (hsome ▸ hfault)⟩

/-- Behind a step of a reader the end of the text is expected. -/
theorem failsAt_bind_endOfInput {n : Nat} {ts : List Kind} {x : Step α n} (hx : Within ts x) :
    FailsAt ts (x >>= fun r => endOfInput r.rest >>= fun _ => .ok r.value) := by
  refine hx.bind_failsAt List.suffix_rfl ?_
  rintro ⟨a, us, _⟩ - hus
  cases us with
  | nil => exact .ok a
  | cons k us => exact .fail hus (.expected .endOfInput)

end Parse

/-- **Error positions are real positions.** An error of a text of policies, an expression or a
reference has the line and the column of an offset of the text. There the rejected lexeme starts, or
a token that the fault is about, or the text ends where a token was expected. -/
theorem ParseError.pointsAt {text : String} {e : ParseError}
    (h : (∃ bound, Policy.parseAll bound text = .error e) ∨ Expr.parse text = .error e ∨
      Uid.parse text = .error e) :
    ∃ k, e.position.IsAt text.toList k ∧ e.PointsAt text.toList k := by
  rcases h with ⟨bound, h⟩ | h | h
  · exact Parse.run_error (Parse.policies_failsAt bound 0) h
  · exact Parse.run_error
      (fun ts => Parse.failsAt_bind_endOfInput (Parse.Reader.expr.within _ _ ts)) h
  · exact Parse.run_error (fun ts => Parse.failsAt_bind_endOfInput (Parse.uid_within ts)) h

/-- A string with an escape that is none, behind a comment and a string with a line break. -/
theorem ParseError.pointsAt_badString :
    let text := "permit(principal, action, resource) // all\nwhen \x7b \"a\nb\" == \"\\q\" \x7d;"
    let e : ParseError := ⟨⟨3, 7⟩, .badString (.unknown 'q')⟩
    Policy.parseAll 1 text = .error e ∧
      ∃ k, e.position.IsAt text.toList k ∧ e.PointsAt text.toList k := by
  intro text e
  -- equality of policies is not decided, so the run is compared without its value
  have hfault : (Policy.parseAll 1 text).map (fun _ => ()) = .error e := by decide +kernel
  have htext : Policy.parseAll 1 text = .error e := Parse.map_eq_error_iff.1 hfault
  exact ⟨htext, pointsAt (.inl ⟨1, htext⟩)⟩

end AccessPolicy

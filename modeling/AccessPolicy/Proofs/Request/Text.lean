import AccessPolicy.Engine.Session
import AccessPolicy.Proofs.Json.Written

/-! # A request that is written out asks the same

The texts of a request are those of its three references and, for the context, the text of a JSON
object that lists its values; no context may also be written as blank text or `null`. Such texts
decode to the request, so an engine answers them as it answers the request itself. -/

namespace AccessPolicy

/-! ## Blank text is no JSON -/

namespace Json

theorem isDigit_eq_false_of_isBlank {c : Char} (h : Text.isBlank c = true) :
    c.isDigit = false := by
  by_contra hd
  have hnat := Lexer.toNat_of_isDigit (Bool.eq_true_of_not_eq_false hd)
  simp only [Text.isBlank, Text.inRanges, Text.blankRanges, List.any_cons, List.any_nil,
    Bool.or_false, Bool.or_eq_true, Bool.and_eq_true, decide_eq_true_eq] at h
  omega

theorem numberAt_blank {c : Char} (h : Text.isBlank c = true) (cs : List Char) :
    numberAt (c :: cs) = none := by
  have hminus : c ≠ '-' := by
    intro hc
    exact absurd (hc ▸ h) (by decide)
  have hdigits : digitsOf (c :: cs) = [] := by
    simp [digitsOf, isDigit_eq_false_of_isBlank h]
  simp [numberAt, hminus, hdigits]

theorem tokenAt_blank {c : Char} (h : Text.isBlank c = true) (cs : List Char) :
    tokenAt c cs = none := by
  unfold tokenAt
  split
  case h_11 => rw [numberAt_blank h, Option.map_none]
  all_goals exact absurd h (by decide)

theorem tokens_blank {cs : List Char} (h : cs.all Text.isBlank = true) :
    tokens cs = none ∨ tokens cs = some [] := by
  induction cs with
  | nil => right; rw [tokens]
  | cons c cs ih =>
    obtain ⟨hc, hcs⟩ := Bool.and_eq_true_iff.1 h
    rw [tokens]
    by_cases hs : isSpace c = true
    · rw [if_pos hs]
      exact ih hcs
    · left
      rw [if_neg hs, tokenAt_blank hc]

theorem parse?_blank {text : String} (h : text.toList.all Text.isBlank = true) :
    parse? text = none := by
  rcases tokens_blank h with htokens | htokens
  · simp [parse?, htokens]
  · simp [parse?, htokens, value]

theorem not_blank_of_parse? {text : String} {j : Json} (h : parse? text = some j) :
    ¬ text.toList.all Text.isBlank = true := by
  intro hblank
  rw [parse?_blank hblank] at h
  nomatch h

end Json

/-! ## Decoding -/

namespace Request

/-- The texts of a context: its values as a JSON object, and blank text or `null` for none. -/
inductive ContextWrittenAs : List (String × Value) → String → Prop where
  | blank {text} (h : text.toList.all Text.isBlank = true) : ContextWrittenAs [] text
  | null {text} (h : Json.parse? text = some .null) : ContextWrittenAs [] text
  | object {context members text} (h : Json.parse? text = some (.object members))
      (hcontext : FieldsWrittenAs context members) : ContextWrittenAs context text

theorem ContextWrittenAs.decode {context : List (String × Value)} {text : String}
    (h : ContextWrittenAs context text) (hr : FieldsReadable context) :
    contextOfText text = .ok context := by
  cases h with
  | blank h => exact if_pos h
  | null h => rw [contextOfText, if_neg (Json.not_blank_of_parse? h), Decode.text, h]
  | object h hcontext =>
    rw [contextOfText, if_neg (Json.not_blank_of_parse? h), Decode.text, h]
    exact hcontext.decode hr

/-- The types of the references can be read, and the context can. -/
structure Readable (r : Request) : Prop where
  principal : IsPath r.principal.entityType
  action : IsPath r.action.entityType
  resource : IsPath r.resource.entityType
  context : FieldsReadable r.context

/-- The texts of a request whose context is written as a text. -/
def textWith (r : Request) (context : String) : RequestText :=
  ⟨r.principal.text, r.action.text, r.resource.text, context⟩

theorem Readable.toRequest {r : Request} (hr : r.Readable) {text : String}
    (h : ContextWrittenAs r.context text) : (r.textWith text).toRequest = .ok r := by
  have huid {u : Uid} (hu : IsPath u.entityType) : Decode.uidText u.text = .ok u := by
    rw [Decode.uidText, Uid.parse_text_of_isPath hu]
  rw [RequestText.toRequest]
  exact Parse.bind_eq_ok_iff.2 ⟨r.context, h.decode hr.context,
    Parse.bind_eq_ok_iff.2 ⟨r.principal, huid hr.principal,
      Parse.bind_eq_ok_iff.2 ⟨r.action, huid hr.action,
        Parse.bind_eq_ok_iff.2 ⟨r.resource, huid hr.resource, rfl⟩⟩⟩⟩

end Request

/-! ## Asking -/

/-- Texts that decode are answered as the request they decode to is. -/
theorem Session.step_evaluateText {t : RequestText} {r : Request} (h : t.toRequest = .ok r)
    (s : Session) (on : String) :
    s.step on (.evaluateText t) = s.step on (.evaluate r) := by
  rw [step, step, Engine.evaluateText, h]

theorem Session.step_isAuthorizedText {t : RequestText} {r : Request} (h : t.toRequest = .ok r)
    (s : Session) (on : String) :
    s.step on (.isAuthorizedText t) = s.step on (.isAuthorized r) := by
  rw [step, step, Engine.isAuthorizedText, Engine.evaluateText, h]
  rfl

/-- **A written request asks what the request asks.** If the types of the references can be read,
and the context is in order and has no special keys inside its values, then the texts of the
request decode to it. So every session answers the texts as it answers the request, with the same
errors, and goes on in the same state. -/
theorem Request.answers_textWith (r : Request) (hr : r.Readable) (text : String)
    (h : ContextWrittenAs r.context text) :
    (r.textWith text).toRequest = .ok r ∧
    ∀ (s : Session) (on : String),
      s.step on (.evaluateText (r.textWith text)) = s.step on (.evaluate r) ∧
      s.step on (.isAuthorizedText (r.textWith text)) = s.step on (.isAuthorized r) := by
  have hdecode := hr.toRequest h
  exact ⟨hdecode, fun s on =>
    ⟨Session.step_evaluateText hdecode s on, Session.step_isAuthorizedText hdecode s on⟩⟩

/-- An id with a quote and a line break, a type of two segments, and a context with a name that is
special only inside values. -/
theorem Request.answers_textWith_quoted :
    (RequestText.mk "App::User::\"a\\\"\\n\"" "Action::\"view\"" "Doc::\"\""
      "\x7b\"__entity\":[true]\x7d").toRequest =
      .ok ⟨⟨"App::User", "a\"\n"⟩, ⟨"Action", "view"⟩, ⟨"Doc", ""⟩,
        [("__entity", .set [.bool true])]⟩ := by
  have hset : Value.WrittenAs (.set [.bool true]) (.array [.bool true]) :=
    .set [(.bool true, .bool true)] (List.forall_mem_singleton.2 (.bool true)) fun _ => Iff.rfl
  have hcontext : FieldsWrittenAs [("__entity", .set [.bool true])]
      [("__entity", .array [.bool true])] :=
    ⟨[("__entity", .set [.bool true], .array [.bool true])], List.forall_mem_singleton.2 hset,
      .refl _, rfl⟩
  have hreadable : FieldsReadable [("__entity", .set [.bool true])] := by
    refine ⟨List.pairwise_singleton _ _, ?_, ?_⟩
    · exact List.forall_mem_singleton.2 (.intro (List.pairwise_singleton _ _)
        (List.forall_mem_singleton.2 (.leaf trivial rfl)))
    · exact List.forall_mem_singleton.2 (.intro trivial
        (List.forall_mem_singleton.2 (.leaf trivial rfl)))
  have hcontext' : Json.parse? "\x7b\"__entity\":[true]\x7d" =
      some (.object [("__entity", .array [.bool true])]) := by with_unfolding_all rfl
  exact (answers_textWith
    ⟨⟨"App::User", "a\"\n"⟩, ⟨"Action", "view"⟩, ⟨"Doc", ""⟩, [("__entity", .set [.bool true])]⟩
    ⟨⟨"App", ["User"], by decide, by decide⟩, ⟨"Action", [], by decide, by decide⟩,
      ⟨"Doc", [], by decide, by decide⟩, hreadable⟩ _ (.object hcontext' hcontext)).1

end AccessPolicy

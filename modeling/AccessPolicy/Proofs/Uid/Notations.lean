import AccessPolicy.Json.Decode
import AccessPolicy.Proofs.Expr.Canonical

/-! # Entity references survive every notation

The text of a reference is read back by the reader of references, inside JSON, and as an expression;
a text that can be read gives a reference whose own text can be read. No two references have the
same text, not even with types that nothing reads: the quote that opens the id stands behind a
colon, and every quote of the id behind a backslash. -/

namespace AccessPolicy

/-! ## Reading -/

theorem Uid.parse_eq_ok_iff {text : String} {u : Uid} :
    Uid.parse text = .ok u ↔
      ∃ ts, Tokens.ofText text = .ok ts ∧ Parse.Takes (Parse.uid ts.kinds) u [] := by
  unfold Uid.parse
  rw [Parse.run_eq_ok_iff]
  exact exists_congr fun ts => and_congr_right fun _ => Parse.bind_endOfInput_eq_ok_iff

theorem Lexes.uid_text {u : Uid} (h : IsPath u.entityType) : Lexes u.text.toList u.kinds := by
  have hlexes := uid h nil
  rwa [List.append_nil, List.append_nil] at hlexes

theorem Uid.parse_text_of_isPath {u : Uid} (h : IsPath u.entityType) :
    Uid.parse u.text = .ok u := by
  refine (Lexes.uid_text h).run_eq_ok (Parse.bind_endOfInput_eq_ok_iff.2 ?_)
  have htakes := Parse.takes_uid_kinds h []
  rwa [List.append_nil] at htakes

theorem segments_mem_kinds {names : List String} {segment : String} (h : segment ∈ names) :
    Kind.ident segment ∈ Parse.segmentKinds names := by
  unfold Parse.segmentKinds
  exact List.mem_flatMap.2 ⟨segment, h, by simp⟩

theorem Uid.isPath_of_parse {text : String} {u : Uid} (h : Uid.parse text = .ok u) :
    IsPath u.entityType := by
  obtain ⟨ts, hts, hu⟩ := Uid.parse_eq_ok_iff.1 h
  obtain ⟨word, names, raw, hkinds, htype, -⟩ := Parse.takes_uid_iff.1 hu
  have hspell := Lexer.spellable_of_tokensAt hts
  rw [hkinds] at hspell
  refine ⟨word, names, fun segment hs => ?_, htype⟩
  obtain rfl | hs := List.mem_cons.1 hs
  · exact hspell (.ident segment) List.mem_cons_self
  · exact hspell (.ident segment)
      (List.mem_cons_of_mem _ (List.mem_append_left _ (segments_mem_kinds hs)))

theorem Expr.parse_uid_text {u : Uid} (h : IsReferable u.entityType) :
    Expr.parse u.text = .ok (.literal (.entity u)) := by
  refine (Lexes.uid_text h.isPath).run_eq_ok (Parse.bind_endOfInput_eq_ok_iff.2 ?_)
  have hroom : 1 ≤ defaultNestingBound := by decide
  have hreads := (Parse.readsAs_uid h).mono hroom [] Parse.closesAt_nil
  rw [List.append_nil] at hreads
  exact hreads.takes rfl

/-! ## JSON -/

/-- The ways to write a reference in JSON: its text, if its type can be read, an object with its
type and id, or an object that holds another writing of it under the key for references. -/
inductive Uid.WrittenAs (u : Uid) : Json → Prop where
  | text (hpath : IsPath u.entityType) : u.WrittenAs (.string u.text)
  | object {members} (hkey : Fields.find? members Decode.entityKey = none)
      (htype : Fields.find? members "type" = some (.string u.entityType))
      (hid : Fields.find? members "id" = some (.string u.id)) : u.WrittenAs (.object members)
  | enclosed {members j} (hkey : Fields.find? members Decode.entityKey = some j)
      (h : u.WrittenAs j) : u.WrittenAs (.object members)

theorem Decode.uid_object {members : List (String × Json)}
    (hkey : Fields.find? members entityKey = none) {entityType id : String}
    (htype : Fields.find? members "type" = some (.string entityType))
    (hid : Fields.find? members "id" = some (.string id)) :
    uid (.object members) = .ok ⟨entityType, id⟩ := by
  rw [uid, wrappedUid?_eq, hkey]
  simp [stringField?, htype, hid]

theorem Decode.uid_enclosed {members : List (String × Json)} {j : Json}
    (hkey : Fields.find? members entityKey = some j) : uid (.object members) = uid j := by
  rw [uid, wrappedUid?_eq, hkey]
  rfl

theorem Uid.WrittenAs.decode {u : Uid} {j : Json} (h : u.WrittenAs j) : Decode.uid j = .ok u := by
  induction h with
  | text hpath => rw [Decode.uid, Decode.uidText, Uid.parse_text_of_isPath hpath]
  | object hkey htype hid => exact Decode.uid_object hkey htype hid
  | enclosed hkey _ ih => exact (Decode.uid_enclosed hkey).trans ih

/-! ## Injectivity -/

/-- The quote behind a colon that opens an escaped text is the last such quote. -/
theorem Text.eq_nil_of_opening_quote {us cs ds : List Char}
    (h : ':' :: '"' :: escape cs = us ++ ':' :: '"' :: escape ds) : us = [] := by
  cases us with
  | nil => rfl
  | cons a us =>
    obtain ⟨-, h⟩ := List.cons.inj h
    cases us with
    | nil => exact absurd (List.cons.inj h).1 (by decide)
    | cons b us =>
      -- Then the opening quote stands in the escaped text, behind a colon.
      obtain ⟨-, h⟩ := List.cons.inj h
      have hescape : escape cs = (us ++ [':']) ++ '"' :: escape ds := by simpa using h
      obtain ⟨vs, hvs⟩ := escape_quote hescape
      have hlast : [':'] = ['\\'] := (List.append_inj' hvs rfl).2
      simp at hlast

theorem Text.append_escape_inj {before before' cs ds : List Char}
    (h : before ++ ':' :: '"' :: escape cs = before' ++ ':' :: '"' :: escape ds) :
    before = before' ∧ cs = ds := by
  have hbefore : before = before' := by
    obtain ⟨us, rfl, hus⟩ | ⟨us, rfl, hus⟩ := List.append_eq_append_iff.1 h
    · simp [eq_nil_of_opening_quote hus]
    · simp [eq_nil_of_opening_quote hus]
  subst hbefore
  have hescape : escape cs = escape ds := by simpa using h
  exact ⟨rfl, escape_injective hescape⟩

theorem Uid.toList_text (u : Uid) :
    u.text.toList =
      ((u.entityType.toList ++ [':']) ++ ':' :: '"' :: Text.escape u.id.toList) ++ ['"'] := by
  simp [Uid.text, Text.quoted]

theorem Uid.eq_of_text_eq {u v : Uid} (h : u.text = v.text) : u = v := by
  have hlist := congrArg String.toList h
  rw [Uid.toList_text, Uid.toList_text] at hlist
  obtain ⟨htype, hid⟩ := Text.append_escape_inj (List.append_cancel_right hlist)
  have htype := String.toList_inj.1 (List.append_cancel_right htype)
  have hid := String.toList_inj.1 hid
  cases u
  cases v
  simp_all

/-- **Entity references survive every notation.** If the type can be read, the text, every writing
in JSON and, for a type that can begin an expression, the expression give the reference back. What
is read has a type that can be read, so its own text gives it back. And any two references with one
text are equal. -/
theorem Uid.survives_notations :
    (∀ u : Uid, IsPath u.entityType →
      Uid.parse u.text = .ok u ∧ (∀ j, u.WrittenAs j → Decode.uid j = .ok u) ∧
        (IsReferable u.entityType → Expr.parse u.text = .ok (.literal (.entity u)))) ∧
    (∀ text u, Uid.parse text = .ok u → IsPath u.entityType ∧ Uid.parse u.text = .ok u) ∧
    ∀ u v : Uid, u.text = v.text → u = v := by
  refine ⟨fun u h => ?_, fun text u h => ?_, fun u v h => Uid.eq_of_text_eq h⟩
  · exact ⟨Uid.parse_text_of_isPath h, fun j hj => hj.decode, Expr.parse_uid_text⟩
  · have hpath := Uid.isPath_of_parse h
    exact ⟨hpath, Uid.parse_text_of_isPath hpath⟩

/-- An id with a quote and a line break: written as text, twice enclosed in JSON, once enclosed as
an object, and in an expression. -/
theorem Uid.survives_notations_user :
    let u : Uid := ⟨"App::User", "a \"b\"\n"⟩
    Uid.parse u.text = .ok u ∧
      Decode.uid (.object [("__entity", .object [("__entity", .string u.text)])]) = .ok u ∧
      Decode.uid (.object [("__entity", .object
        [("id", .string "a \"b\"\n"), ("type", .string "App::User")])]) = .ok u ∧
      Expr.parse u.text = .ok (.literal (.entity u)) := by
  have hname : IsReferable "App::User" := ⟨"App", ["User"], by decide, by decide, by decide⟩
  obtain ⟨hparse, hjson, hexpr⟩ :=
    Uid.survives_notations.1 ⟨"App::User", "a \"b\"\n"⟩ hname.isPath
  exact ⟨hparse, hjson _ (.enclosed rfl (.enclosed rfl (.text hname.isPath))),
    hjson _ (.enclosed rfl (.object rfl rfl rfl)), hexpr hname⟩

end AccessPolicy

import AccessPolicy.Proofs.Parse.Takes
import AccessPolicy.Proofs.Text.Escape
import AccessPolicy.Proofs.Token.Spelling

/-! # Texts and their tokens

`Lexes` relates a text to its tokens wherever it stands, so a text can be cut into tokens from its
end. In the other direction every token of a text has a spelling. -/

namespace AccessPolicy

/-- The token of a quoted text. -/
def Kind.quoted (s : String) : Kind := .string (Text.escape s.toList)

/-- The text is cut into the tokens. -/
def Lexes (cs : List Char) (ks : List Kind) : Prop :=
  ∀ p, ∃ ts, Lexer.tokensAt p cs = .ok ts ∧ ts.kinds = ks

namespace Lexes

variable {cs rest : List Char} {ks : List Kind}

theorem nil : Lexes [] [] := fun p => ⟨_, Lexer.tokensAt_nil p, rfl⟩

theorem space (h : Lexes cs ks) : Lexes (' ' :: cs) ks := by
  intro p
  rw [Lexer.tokensAt_space]
  exact h _

theorem token {k : Kind} (hk : k.Spellable) (hr : k.EndsBefore rest) (h : Lexes rest ks) :
    Lexes (k.spelling ++ rest) (k :: ks) := by
  intro p
  obtain ⟨ts, hts, hkinds⟩ := h (p.afterAll k.spelling)
  rw [Lexer.tokensAt_spelling hk p hr, hts]
  exact ⟨_, rfl, congrArg (k :: ·) hkinds⟩

theorem symbol {s : Symbol} (hr : (Kind.symbol s).EndsBefore rest) (h : Lexes rest ks) :
    Lexes (s.text.toList ++ rest) (.symbol s :: ks) :=
  @token _ _ (.symbol s) trivial hr h

theorem ident {name : String} (hn : IsIdentifier name)
    (hr : ∀ c ∈ rest.head?, Lexer.isIdentChar c = false) (h : Lexes rest ks) :
    Lexes (name.toList ++ rest) (.ident name :: ks) :=
  @token _ _ (.ident name) hn hr h

theorem quoted (s : String) (h : Lexes rest ks) :
    Lexes ((Text.quoted s).toList ++ rest) (.quoted s :: ks) := by
  have hk : (Kind.quoted s).Spellable := Text.rawLength_escape s.toList
  have hs : (Text.quoted s).toList = (Kind.quoted s).spelling := by
    simp [Text.quoted, Kind.quoted, Kind.spelling]
  rw [hs]
  exact token hk trivial h

end Lexes

/-- A reader of a whole text reads its tokens. -/
theorem Lexes.run_eq_ok {α : Type} {read : List Kind → Except Parse.Failure α} {text : String}
    {ks : List Kind} {a : α} (h : Lexes text.toList ks) (hr : read ks = .ok a) :
    Parse.run read text = .ok a := by
  obtain ⟨ts, hts, rfl⟩ := h Position.start
  exact Parse.run_eq_ok_iff.2 ⟨ts, hts, hr⟩

/-! ## Tokens of a text have a spelling -/

/-- Every token has a spelling. -/
def Spellable (ks : List Kind) : Prop := ∀ k ∈ ks, k.Spellable

namespace Spellable

variable {k : Kind} {us vs : List Kind}

@[simp] theorem nil : Spellable [] := by simp [Spellable]

@[simp] theorem cons_iff : Spellable (k :: us) ↔ k.Spellable ∧ Spellable us :=
  List.forall_mem_cons

@[simp] theorem append_iff : Spellable (us ++ vs) ↔ Spellable us ∧ Spellable vs :=
  List.forall_mem_append

theorem flatMap {α : Type} {part : α → List Kind} {l : List α}
    (h : ∀ a ∈ l, Spellable (part a)) : Spellable (l.flatMap part) := by
  intro k hk
  obtain ⟨a, ha, hk⟩ := List.mem_flatMap.1 hk
  exact h a ha k hk

@[simp] theorem symbol (s : Symbol) : (Kind.symbol s).Spellable := trivial

@[simp] theorem ident_iff {name : String} :
    (Kind.ident name).Spellable ↔ IsIdentifier name := Iff.rfl

@[simp] theorem quoted (s : String) : (Kind.quoted s).Spellable := Text.rawLength_escape s.toList

end Spellable

/-- What may stand between the quotes of a string: a quote only behind a backslash, and a backslash
only before another character. -/
inductive Contents : List Char → Prop where
  | nil : Contents []
  | plain {c cs} (hquote : c ≠ '"') (hslash : c ≠ '\\') (h : Contents cs) : Contents (c :: cs)
  | escaped {c cs} (h : Contents cs) : Contents ('\\' :: c :: cs)

namespace Lexer

theorem contents_take {cs : List Char} {n : Nat} (h : rawLength cs = some n) :
    Contents (cs.take n) ∧ cs.drop n = '"' :: cs.drop (n + 1) := by
  induction cs using rawLength.induct generalizing n with
  | case1 => cases h
  | case2 cs =>
    cases h
    exact ⟨.nil, rfl⟩
  | case3 => cases h
  | case4 c cs ih =>
    rw [Text.rawLength_slash, Option.map_eq_some_iff] at h
    obtain ⟨m, hm, rfl⟩ := h
    obtain ⟨hcontents, hdrop⟩ := ih hm
    exact ⟨.escaped hcontents, hdrop⟩
  | case5 c cs hq hb hb' ih =>
    have hs : c ≠ '\\' := by
      rintro rfl
      cases cs with
      | nil => exact hb rfl rfl
      | cons d cs => exact hb' d cs rfl rfl
    rw [Text.rawLength_plain hs hq, Option.map_eq_some_iff] at h
    obtain ⟨m, hm, rfl⟩ := h
    obtain ⟨hcontents, hdrop⟩ := ih hm
    exact ⟨.plain hq hs hcontents, hdrop⟩

theorem rawLength_contents {raw : List Char} (h : Contents raw) :
    rawLength (raw ++ ['"']) = some raw.length := by
  induction h with
  | nil => rfl
  | plain hq hs _ ih =>
    rw [List.cons_append, Text.rawLength_plain hs hq, ih]
    rfl
  | escaped _ ih =>
    rw [List.cons_append, List.cons_append, Text.rawLength_slash, ih]
    rfl

theorem spellable_of_lexeme {c : Char} {cs : List Char} {k : Kind} {m : Nat}
    (h : lexeme c cs = .ok (k, m)) : k.Spellable := by
  unfold lexeme at h
  split at h
  · cases h
    trivial
  · split at h
    · split at h
      · rename_i n hn
        cases h
        exact rawLength_contents (contents_take hn).1
      · cases h
    · split at h
      · dsimp only at h
        split at h
        · rename_i hn
          cases h
          exact hn
        · cases h
      · split at h
        · rename_i hc
          cases h
          exact ⟨c, cs.takeWhile isIdentChar, String.toList_ofList, hc,
            List.all_eq_true.1 List.all_takeWhile⟩
        · split at h <;> cases h

theorem spellable_of_tokensAt {p : Position} {cs : List Char} {ts : Tokens}
    (h : tokensAt p cs = .ok ts) : Spellable ts.kinds := by
  induction hn : cs.length using Nat.strongRecOn generalizing p cs ts with
  | ind n ih =>
    rw [tokensAt] at h
    split at h
    · cases h
      simp [Tokens.kinds]
    · rename_i c rest hdrop
      have hlt : rest.length < n := by
        have hlen := congrArg List.length hdrop
        simp only [List.length_drop, List.length_cons] at hlen
        omega
      split at h
      · cases h
      · rename_i k m hk
        cases hus : tokensAt ((p.afterAll (cs.take (triviaLength false cs))).afterAll
            (c :: rest.take m)) (rest.drop m) with
        | error e =>
          rw [hus] at h
          cases h
        | ok us =>
          rw [hus] at h
          cases h
          have hrest := ih (rest.drop m).length (by simp only [List.length_drop]; omega) hus rfl
          exact List.forall_mem_cons.2 ⟨spellable_of_lexeme hk, hrest⟩

end Lexer

end AccessPolicy

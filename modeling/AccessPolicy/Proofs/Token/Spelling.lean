import AccessPolicy.Token.Lexer

/-! # Spelled tokens

Every token that the lexer can return has a spelling. It is cut back into the same token if the
characters behind it cannot make the lexeme longer, so spellings with single spaces between them are
read back. -/

namespace AccessPolicy

/-- The characters of a token. -/
def Kind.spelling : Kind → List Char
  | .ident name => name.toList
  | .string raw => '"' :: (raw ++ ['"'])
  | .int n => Nat.toDigits 10 n
  | .symbol s => s.text.toList

/-- The lexer reads the name as one identifier. -/
def IsIdentifier (name : String) : Prop :=
  ∃ c cs, name.toList = c :: cs ∧ Lexer.isIdentStart c = true ∧
    ∀ d ∈ cs, Lexer.isIdentChar d = true

instance (name : String) : Decidable (IsIdentifier name) :=
  match h : name.toList with
  | [] => .isFalse fun ⟨_, _, hn, _⟩ => nomatch h.symm.trans hn
  | c :: cs =>
    decidable_of_iff ((Lexer.isIdentStart c && cs.all Lexer.isIdentChar) = true) <| by
      rw [Bool.and_eq_true, List.all_eq_true]
      constructor
      · exact fun hc => ⟨c, cs, h, hc⟩
      · rintro ⟨_, _, hn, hc⟩
        cases h.symm.trans hn
        exact hc

/-- A token that has a lexeme. -/
def Kind.Spellable : Kind → Prop
  | .ident name => IsIdentifier name
  | .string raw => Lexer.rawLength (raw ++ ['"']) = some raw.length
  | .int n => n < 0x10000000000000000
  | .symbol _ => True

instance (k : Kind) : Decidable k.Spellable :=
  match k with
  | .ident name => inferInstanceAs (Decidable (IsIdentifier name))
  | .string raw => inferInstanceAs (Decidable (Lexer.rawLength (raw ++ ['"']) = some raw.length))
  | .int n => inferInstanceAs (Decidable (n < 0x10000000000000000))
  | .symbol _ => .isTrue trivial

/-- The character that would make the symbol another one, if it followed. -/
def Symbol.longer? : Symbol → Option Char
  | .colon => some ':'
  | .less | .greater | .bang => some '='
  | _ => none

/-- The characters do not make a lexeme of the token in front of them longer. -/
def Kind.EndsBefore (k : Kind) (rest : List Char) : Prop :=
  match k with
  | .ident _ => ∀ c ∈ rest.head?, Lexer.isIdentChar c = false
  | .string _ => True
  | .int _ => ∀ c ∈ rest.head?, c.isDigit = false
  | .symbol s => ∀ c ∈ rest.head?, s.longer? ≠ some c

theorem Kind.endsBefore_nil (k : Kind) : k.EndsBefore [] := by
  cases k <;> simp [EndsBefore]

theorem Kind.endsBefore_space (k : Kind) (cs : List Char) : k.EndsBefore (' ' :: cs) := by
  cases k with
  | symbol s => cases s <;> simp [EndsBefore, Symbol.longer?]
  | _ => simp [EndsBefore, Lexer.isIdentChar]

/-- Tokens with single spaces between them. -/
def spelled : List Kind → List Char
  | [] => []
  | [k] => k.spelling
  | k :: ks => k.spelling ++ ' ' :: spelled ks

namespace Lexer

theorem takeWhile_append_stop {p : Char → Bool} {cs rest : List Char} (hcs : ∀ c ∈ cs, p c)
    (hr : ∀ c ∈ rest.head?, p c = false) : (cs ++ rest).takeWhile p = cs := by
  rw [List.takeWhile_append_of_pos hcs]
  cases rest with
  | nil => simp
  | cons c rest => simp [hr c rfl]

/-! ## First characters -/

/-- The character starts a name, a number or a string. -/
def StartsWord (c : Char) : Prop := isIdentStart c = true ∨ c.isDigit = true ∨ c = '"'

instance (c : Char) : Decidable (StartsWord c) := by unfold StartsWord; infer_instance

theorem not_startsWord_of_single? {c : Char} {s : Symbol} (h : single? c = some s) :
    ¬ StartsWord c := by
  unfold single? at h
  split at h <;> first | decide | cases h

theorem not_startsWord_of_double? {c d : Char} {s : Symbol} (h : double? c d = some s) :
    ¬ StartsWord c := by
  unfold double? at h
  split at h <;> first | decide | cases h

theorem StartsWord.symbol?_eq_none {c : Char} (h : StartsWord c) (cs : List Char) :
    symbol? c cs = none := by
  unfold symbol?
  cases hd : cs.head?.bind (double? c) with
  | some s =>
    obtain ⟨d, -, hs⟩ := Option.bind_eq_some_iff.1 hd
    exact absurd h (not_startsWord_of_double? hs)
  | none =>
    cases hs : single? c with
    | some s => exact absurd h (not_startsWord_of_single? hs)
    | none => rfl

theorem toNat_of_isDigit {c : Char} (h : c.isDigit = true) : 48 ≤ c.toNat ∧ c.toNat ≤ 57 := by
  simpa [Char.isDigit, UInt32.le_iff_toNat_le] using h

theorem toNat_of_isIdentStart {c : Char} (h : isIdentStart c = true) :
    65 ≤ c.toNat ∧ c.toNat ≤ 122 := by
  have h : (decide (65 ≤ c.val ∧ c.val ≤ 90) || (decide (97 ≤ c.val) && decide (c.val ≤ 122)) ||
      c == '_') = true := h
  simp only [Bool.or_eq_true, Bool.and_eq_true, decide_eq_true_eq, beq_iff_eq,
    UInt32.le_iff_toNat_le] at h
  rcases h with (h | h) | rfl
  · have h : 65 ≤ c.toNat ∧ c.toNat ≤ 90 := h
    omega
  · have h : 97 ≤ c.toNat ∧ c.toNat ≤ 122 := h
    omega
  · decide

theorem isDigit_eq_false_of_isIdentStart {c : Char} (h : isIdentStart c = true) :
    c.isDigit = false := by
  rw [Bool.eq_false_iff]
  intro hd
  have hd := toNat_of_isDigit hd
  have h := toNat_of_isIdentStart h
  omega

/-- A lexeme starts here and no trivia. -/
def Solid (c : Char) : Prop := c ≠ '/' ∧ Text.isBlank c = false

theorem triviaLength_of_solid {c : Char} (h : Solid c) (cs : List Char) :
    triviaLength false (c :: cs) = 0 := by
  rw [triviaLength]
  · rw [h.2]
    rfl
  · exact fun _ hc _ => h.1 hc

theorem StartsWord.solid {c : Char} (h : StartsWord c) : Solid c := by
  have hb : 34 ≤ c.toNat ∧ c.toNat ≤ 122 ∧ c.toNat ≠ 47 := by
    rcases h with h | h | rfl
    · have := toNat_of_isIdentStart h
      omega
    · have := toNat_of_isDigit h
      omega
    · decide
  refine ⟨?_, ?_⟩
  · rintro rfl
    exact hb.2.2 rfl
  · simp [Text.isBlank, Text.inRanges, Text.blankRanges]
    omega

/-! ## Lexemes -/

theorem decimalValue_toDigits (n : Nat) : decimalValue (Nat.toDigits 10 n) = n :=
  Nat.ofDigitChars_ten_toDigits

theorem rawLength_append {cs : List Char} {n : Nat} (h : rawLength cs = some n)
    (ds : List Char) : rawLength (cs ++ ds) = some n := by
  induction cs using rawLength.induct generalizing n with
  | case1 => cases h
  | case2 cs => exact h
  | case3 => cases h
  | case4 c cs ih =>
    rw [rawLength, Option.map_eq_some_iff] at h
    obtain ⟨m, hm, rfl⟩ := h
    simp [rawLength, ih hm]
  | case5 c cs hq hb hb' ih =>
    have hs : c ≠ '\\' := by
      rintro rfl
      cases cs with
      | nil => exact hb rfl rfl
      | cons d cs => exact hb' d cs rfl rfl
    rw [rawLength] at h
    · obtain ⟨m, hm, rfl⟩ := Option.map_eq_some_iff.1 h
      rw [List.cons_append, rawLength]
      · rw [ih hm]
        rfl
      · exact hq
      · exact fun hc _ => hs hc
      · exact fun _ _ hc _ => hs hc
    · exact hq
    · exact fun hc _ => hs hc
    · exact fun _ _ hc _ => hs hc

theorem double?_eq_none {c d : Char} {s : Symbol} (hs : single? c = some s)
    (hd : s.longer? ≠ some d) : double? c d = none := by
  unfold double?
  split <;> first | rfl | (cases hs <;> exact absurd rfl hd)

theorem lexeme_single {c : Char} {s : Symbol} {rest : List Char} (hs : single? c = some s)
    (hr : (Kind.symbol s).EndsBefore rest) : lexeme c rest = .ok (.symbol s, 0) := by
  have hnone : rest.head?.bind (double? c) = none := by
    cases rest with
    | nil => rfl
    | cons d us => exact double?_eq_none hs (hr d rfl)
  unfold lexeme symbol?
  simp only [hnone, hs, Option.map_some]

theorem lexeme_double {c d : Char} {s : Symbol} (hs : double? c d = some s) (rest : List Char) :
    lexeme c (d :: rest) = .ok (.symbol s, 1) := by
  unfold lexeme symbol?
  simp only [List.head?_cons, Option.bind_some, hs]

theorem lexeme_symbol (s : Symbol) {c : Char} {cs rest : List Char}
    (hs : s.text.toList = c :: cs) (hr : (Kind.symbol s).EndsBefore rest) :
    lexeme c (cs ++ rest) = .ok (.symbol s, cs.length) := by
  cases s <;> cases hs <;> first | exact lexeme_single rfl hr | exact lexeme_double rfl rest

theorem lexeme_digits {c : Char} {cs rest : List Char}
    (hdigits : ∀ d ∈ c :: cs, d.isDigit = true)
    (hlt : decimalValue (c :: cs) < 0x10000000000000000)
    (hr : ∀ d ∈ rest.head?, d.isDigit = false) :
    Solid c ∧ lexeme c (cs ++ rest) = .ok (.int (decimalValue (c :: cs)), cs.length) := by
  have hc := hdigits c (by simp)
  refine ⟨StartsWord.solid (.inr (.inl hc)), ?_⟩
  have hq : c ≠ '"' := by
    rintro rfl
    revert hc
    decide
  have hcs : (cs ++ rest).takeWhile Char.isDigit = cs :=
    takeWhile_append_stop (fun d hm => hdigits d (by simp [hm])) hr
  unfold lexeme
  simp only [StartsWord.symbol?_eq_none (.inr (.inl hc)), if_neg hq, hc, if_true, hcs]
  rw [if_pos hlt]
  rfl

theorem lexeme_spelling {k : Kind} (hk : k.Spellable) {rest : List Char}
    (hr : k.EndsBefore rest) :
    ∃ c cs, k.spelling = c :: cs ∧ Solid c ∧ lexeme c (cs ++ rest) = .ok (k, cs.length) := by
  cases k with
  | ident name =>
    obtain ⟨c, cs, hname, hc, hcs⟩ := hk
    refine ⟨c, cs, hname, StartsWord.solid (.inl hc), ?_⟩
    have hq : c ≠ '"' := by
      rintro rfl
      revert hc
      decide
    have hlist : String.ofList (c :: cs) = name := by rw [← hname, String.ofList_toList]
    unfold lexeme
    simp only [StartsWord.symbol?_eq_none (.inl hc), if_neg hq, hc,
      isDigit_eq_false_of_isIdentStart hc, takeWhile_append_stop hcs hr, hlist]
    rfl
  | string raw =>
    refine ⟨'"', raw ++ ['"'], rfl, StartsWord.solid (.inr (.inr rfl)), ?_⟩
    unfold lexeme
    simp only [StartsWord.symbol?_eq_none (.inr (.inr rfl)), if_true, rawLength_append hk]
    simp
  | int n =>
    obtain ⟨c, cs, hd⟩ := List.exists_cons_of_ne_nil (Nat.toDigits_ne_nil (n := n) (b := 10))
    have hdigit : ∀ d ∈ c :: cs, d.isDigit = true := fun d hm =>
      Nat.isDigit_of_mem_toDigits (by decide) (by decide) (hd ▸ hm)
    have hv : decimalValue (c :: cs) = n := hd ▸ decimalValue_toDigits n
    have hlexeme := lexeme_digits hdigit (hv.symm ▸ hk) hr
    rw [hv] at hlexeme
    exact ⟨c, cs, hd, hlexeme⟩
  | symbol s =>
    obtain ⟨c, cs, hs, hc⟩ : ∃ c cs, s.text.toList = c :: cs ∧ Solid c := by
      cases s <;> exact ⟨_, _, rfl, by unfold Solid; decide⟩
    exact ⟨c, cs, hs, hc, lexeme_symbol s hs hr⟩

/-! ## Texts -/

theorem tokensAt_nil (p : Position) : tokensAt p [] = .ok ⟨[], p⟩ := by
  rw [tokensAt]
  rfl

theorem tokensAt_space (p : Position) (cs : List Char) :
    tokensAt p (' ' :: cs) = tokensAt (p.after ' ') cs := by
  have hn : triviaLength false (' ' :: cs) = triviaLength false cs + 1 := by
    rw [triviaLength]
    · rfl
    · intro _ hc
      cases hc
  rw [tokensAt, tokensAt, hn]
  rfl

theorem tokensAt_of_lexeme {c : Char} {cs : List Char} {k : Kind} {m : Nat} (hc : Solid c)
    (hl : lexeme c cs = .ok (k, m)) (p : Position) :
    tokensAt p (c :: cs) = (tokensAt (p.afterAll (c :: cs.take m)) (cs.drop m)).map fun ts =>
      ⟨⟨k, p⟩ :: ts.list, ts.finish⟩ := by
  rw [tokensAt, triviaLength_of_solid hc]
  split
  · rename_i h
    cases h
  · rename_i c' rest h
    cases h
    rw [hl]
    rfl

theorem tokensAt_spelling {k : Kind} (hk : k.Spellable) (p : Position) {rest : List Char}
    (hr : k.EndsBefore rest) :
    tokensAt p (k.spelling ++ rest) = (tokensAt (p.afterAll k.spelling) rest).map fun ts =>
      ⟨⟨k, p⟩ :: ts.list, ts.finish⟩ := by
  obtain ⟨c, cs, hs, hc, hl⟩ := lexeme_spelling hk hr
  rw [hs, List.cons_append, tokensAt_of_lexeme hc hl, List.take_left, List.drop_left]

theorem tokensAt_spelled {ks : List Kind} (hks : ∀ k ∈ ks, k.Spellable) (p : Position) :
    ∃ ts, tokensAt p (spelled ks) = .ok ts ∧ ts.kinds = ks := by
  induction ks using spelled.induct generalizing p with
  | case1 => exact ⟨_, tokensAt_nil p, rfl⟩
  | case2 k =>
    have h := tokensAt_spelling (hks k (by simp)) p k.endsBefore_nil
    rw [List.append_nil, tokensAt_nil] at h
    exact ⟨_, h, rfl⟩
  | case3 k ks hne ih =>
    obtain ⟨ts, hts, hkinds⟩ := ih (fun k' hk' => hks k' (.tail _ hk'))
      ((p.afterAll k.spelling).after ' ')
    have h := tokensAt_spelling (hks k (by simp)) p (k.endsBefore_space (spelled ks))
    rw [tokensAt_space, hts] at h
    rw [spelled]
    · exact ⟨_, h, congrArg (k :: ·) hkinds⟩
    · exact hne

end Lexer

/-- **Spelled tokens with single spaces between them are read back.** -/
theorem Tokens.ofText_spelled {ks : List Kind} (hks : ∀ k ∈ ks, k.Spellable) :
    ∃ ts, Tokens.ofText (String.ofList (spelled ks)) = .ok ts ∧ ts.kinds = ks := by
  unfold Tokens.ofText
  rw [String.toList_ofList]
  exact Lexer.tokensAt_spelled hks _

end AccessPolicy

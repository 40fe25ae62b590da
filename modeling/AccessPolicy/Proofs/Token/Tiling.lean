import AccessPolicy.Proofs.Token.Offset
import Mathlib.Data.List.Forall2
import Mathlib.Data.Nat.Digits.Defs
import Mathlib.Tactic.Ring

/-! # Texts tiled by lexemes

A text with tokens is trivia and lexemes in turn. `Spells` says which characters write a token, and
`Tiles` puts the lexemes into the text, each as long as it can be and each token at the place of its
first character. The lexer finds the tiling of a text if there is one, and there is only one. -/

namespace AccessPolicy

/-! ## Lexemes and trivia -/

/-- A decimal digit and its value. -/
def DecimalDigit (c : Char) (d : Nat) : Prop := d < 10 ∧ c = Nat.digitChar d

instance (c : Char) (d : Nat) : Decidable (DecimalDigit c d) := inferInstanceAs (Decidable (_ ∧ _))

/-- Decimal digits, at least one, that write a number. -/
structure DecimalNumeral (cs : List Char) (n : Nat) : Prop where
  ne_nil : cs ≠ []
  digits : ∃ ds, List.Forall₂ DecimalDigit cs ds ∧ n = Nat.ofDigits 10 ds.reverse

/-- The characters write the token. -/
inductive Spells : Kind → List Char → Prop where
  | symbol (s : Symbol) : Spells (.symbol s) s.text.toList
  | ident {name} (h : IsIdentifier name) : Spells (.ident name) name.toList
  | int {n cs} (h : DecimalNumeral cs n) (hlt : n < 2 ^ 64) : Spells (.int n) cs
  | string {raw} (h : Contents raw) : Spells (.string raw) ('"' :: (raw ++ ['"']))

/-- Blanks and comments in front of other characters. A comment runs to the next line break, or to
the end of the text. -/
inductive Trivia : List Char → List Char → Prop where
  | nil {rest} : Trivia [] rest
  | blank {c cs rest} (hc : Text.isBlank c = true) (h : Trivia cs rest) : Trivia (c :: cs) rest
  | comment {body cs rest} (hbody : '\n' ∉ body) (h : Trivia cs rest) :
      Trivia ('/' :: '/' :: (body ++ '\n' :: cs)) rest
  | lastComment {body} (hbody : '\n' ∉ body) : Trivia ('/' :: '/' :: body) []

/-- The tokens of a text, and the end of the text behind them. -/
def Tokens.withEnd (ts : Tokens) : List (Option Kind × Position) :=
  ts.list.map (fun t => (some t.kind, t.position)) ++ [(none, ts.finish)]

theorem Tokens.withEnd_injective : Function.Injective Tokens.withEnd := by
  rintro ⟨ts, p⟩ ⟨us, q⟩ h
  obtain ⟨hlist, hfinish⟩ := List.append_inj' h rfl
  have hinjective : Function.Injective fun t : Token => (some t.kind, t.position) := by
    rintro ⟨k, p⟩ ⟨l, q⟩ h
    cases h
    rfl
  obtain rfl : ts = us := List.map_injective_iff.2 hinjective hlist
  cases hfinish
  rfl

/-- From an offset on, a text is trivia and lexemes in turn, and these are its tokens. -/
inductive Tiles (text : List Char) : Nat → List (Option Kind × Position) → Prop where
  | finish {k p} (hfront : Trivia (text.drop k) []) (hp : p.IsAt text text.length) :
      Tiles text k [(none, p)]
  | lexeme {k p kind front chars rest ts} (htext : text.drop k = front ++ (chars ++ rest))
      (hfront : Trivia front (chars ++ rest)) (hkind : Spells kind chars)
      (hends : kind.EndsBefore rest) (hp : p.IsAt text (k + front.length))
      (h : Tiles text (k + front.length + chars.length) ts) :
      Tiles text k ((some kind, p) :: ts)

/-- An offset has one place. -/
theorem Position.IsAt.eq {p q : Position} {cs : List Char} {k : Nat} (hp : p.IsAt cs k)
    (hq : q.IsAt cs k) : p = q := by
  obtain ⟨line, column⟩ := p
  obtain ⟨line', column'⟩ := q
  obtain ⟨-, rfl, rfl⟩ := hp
  obtain ⟨-, rfl, rfl⟩ := hq
  rfl

namespace Lexer

/-! ## Numbers -/

theorem decimalDigit_of_isDigit {c : Char} (h : c.isDigit = true) :
    DecimalDigit c (c.toNat - 48) := by
  obtain ⟨hlow, hhigh⟩ := toNat_of_isDigit h
  have hascii : ∀ n < 58, 48 ≤ n → DecimalDigit (Char.ofNat n) (n - 48) := by decide
  have hc := hascii c.toNat (by omega) hlow
  rwa [Char.ofNat_toNat] at hc

theorem isDigit_of_decimalDigit {c : Char} {d : Nat} (h : DecimalDigit c d) :
    c.isDigit = true ∧ c.toNat - '0'.toNat = d := by
  obtain ⟨hd, rfl⟩ := h
  revert d
  decide

/-- Horner's rule reads the digits from the highest one on. -/
theorem foldl_decimal {cs : List Char} {ds : List Nat} (h : List.Forall₂ DecimalDigit cs ds)
    (acc : Nat) :
    cs.foldl (fun n c => 10 * n + (c.toNat - '0'.toNat)) acc =
      Nat.ofDigits 10 ds.reverse + 10 ^ ds.length * acc := by
  induction h generalizing acc with
  | nil => simp
  | cons hd _ ih =>
    rw [List.foldl_cons, ih, (isDigit_of_decimalDigit hd).2, List.reverse_cons,
      Nat.ofDigits_append, Nat.ofDigits_singleton, List.length_reverse, List.length_cons,
      Nat.pow_succ]
    ring

theorem decimalValue_eq {cs : List Char} {ds : List Nat} (h : List.Forall₂ DecimalDigit cs ds) :
    decimalValue cs = Nat.ofDigits 10 ds.reverse := foldl_decimal h 0

theorem isDigit_of_decimalDigits {cs : List Char} {ds : List Nat}
    (h : List.Forall₂ DecimalDigit cs ds) : ∀ c ∈ cs, c.isDigit = true := by
  induction h with
  | nil => simp
  | cons hd _ ih => exact List.forall_mem_cons.2 ⟨(isDigit_of_decimalDigit hd).1, ih⟩

theorem decimalNumeral_iff {cs : List Char} {n : Nat} :
    DecimalNumeral cs n ↔ cs ≠ [] ∧ (∀ c ∈ cs, c.isDigit = true) ∧ decimalValue cs = n := by
  constructor
  · rintro ⟨hne, ds, hds, rfl⟩
    exact ⟨hne, isDigit_of_decimalDigits hds, decimalValue_eq hds⟩
  · rintro ⟨hne, hdigits, rfl⟩
    have hds : List.Forall₂ DecimalDigit cs (cs.map fun c => c.toNat - 48) := by
      rw [List.forall₂_map_right_iff, List.forall₂_same]
      exact fun c hc => decimalDigit_of_isDigit (hdigits c hc)
    exact ⟨hne, _, hds, decimalValue_eq hds⟩

/-! ## One lexeme -/

theorem symbol_spelled {c : Char} {cs : List Char} {s : Symbol} {n : Nat}
    (h : symbol? c cs = some (s, n)) :
    s.text.toList = c :: cs.take n ∧ (Kind.symbol s).EndsBefore (cs.drop n) := by
  unfold symbol? at h
  split at h
  · rename_i t hdouble
    cases h
    obtain ⟨d, hd, hs⟩ := Option.bind_eq_some_iff.1 hdouble
    obtain ⟨ds, rfl⟩ := List.head?_eq_some_iff.1 hd
    unfold double? at hs
    split at hs <;> cases hs <;> exact ⟨rfl, fun c _ => nofun⟩
  · rename_i hdouble
    obtain ⟨t, hs, hn⟩ := Option.map_eq_some_iff.1 h
    cases hn
    refine ⟨?_, fun d hd hlonger => ?_⟩
    · unfold single? at hs
      split at hs <;> cases hs <;> rfl
    · rw [List.drop_zero] at hd
      rw [hd, Option.bind_some] at hdouble
      unfold single? at hs
      split at hs <;> cases hs <;> cases hlonger <;> cases hdouble

theorem take_length_takeWhile (p : Char → Bool) (cs : List Char) :
    cs.take (cs.takeWhile p).length = cs.takeWhile p :=
  (List.prefix_iff_eq_take.1 (List.takeWhile_prefix p)).symm

theorem takeWhile_stops (p : Char → Bool) (cs : List Char) :
    ∀ c ∈ (cs.drop (cs.takeWhile p).length).head?, p c = false := by
  have hdrop : cs.drop (cs.takeWhile p).length = cs.dropWhile p := by
    conv => lhs; arg 2; rw [← List.takeWhile_append_dropWhile (p := p) (l := cs)]
    exact List.drop_left
  intro c hc
  have hstop := List.head?_dropWhile_not p cs
  rw [hdrop] at hc
  rwa [hc] at hstop

/-- A lexeme writes its token, and the characters behind it do not go on with it. -/
theorem spells_of_lexeme {c : Char} {cs : List Char} {k : Kind} {m : Nat}
    (h : lexeme c cs = .ok (k, m)) : Spells k (c :: cs.take m) ∧ k.EndsBefore (cs.drop m) := by
  unfold lexeme at h
  split at h
  · rename_i s n hs
    cases h
    obtain ⟨htext, hends⟩ := symbol_spelled hs
    exact ⟨htext ▸ .symbol s, hends⟩
  · split at h
    · rename_i hq
      split at h
      · rename_i n hn
        cases h
        obtain ⟨hcontents, hdrop⟩ := contents_take hn
        have htake : cs.take (n + 1) = cs.take n ++ ['"'] := by
          rw [List.take_add, hdrop]
          rfl
        rw [hq, htake]
        exact ⟨.string hcontents, trivial⟩
      · cases h
    · split at h
      · rename_i hdigit
        dsimp only at h
        split at h
        · rename_i hlt
          cases h
          rw [List.length_cons, Nat.add_sub_cancel, take_length_takeWhile]
          have hdigits : ∀ d ∈ c :: cs.takeWhile Char.isDigit, d.isDigit = true :=
            List.forall_mem_cons.2 ⟨hdigit, List.all_eq_true.1 List.all_takeWhile⟩
          exact ⟨.int (decimalNumeral_iff.2 ⟨List.cons_ne_nil _ _, hdigits, rfl⟩) hlt,
            takeWhile_stops Char.isDigit cs⟩
        · cases h
      · split at h
        · rename_i hc
          cases h
          have hname : IsIdentifier (String.ofList (c :: cs.takeWhile isIdentChar)) :=
            ⟨c, _, String.toList_ofList, hc, List.all_eq_true.1 List.all_takeWhile⟩
          have hspells := Spells.ident hname
          rw [String.toList_ofList] at hspells
          rw [take_length_takeWhile]
          exact ⟨hspells, takeWhile_stops isIdentChar cs⟩
        · split at h <;> cases h

/-- What writes a token is cut off as its lexeme, if the characters behind it do not go on with
it. -/
theorem lexeme_spells {k : Kind} {chars rest : List Char} (hk : Spells k chars)
    (hr : k.EndsBefore rest) :
    ∃ c cs, chars = c :: cs ∧ Solid c ∧ lexeme c (cs ++ rest) = .ok (k, cs.length) := by
  cases hk with
  | symbol s => exact @lexeme_spelling (.symbol s) trivial rest hr
  | @ident name hname => exact @lexeme_spelling (.ident name) hname rest hr
  | @string raw hraw => exact @lexeme_spelling (.string raw) (rawLength_contents hraw) rest hr
  | int hn hlt =>
    obtain ⟨hne, hdigits, hvalue⟩ := decimalNumeral_iff.1 hn
    obtain ⟨c, cs, rfl⟩ := List.exists_cons_of_ne_nil hne
    have hlexeme := lexeme_digits hdigits (hvalue.symm ▸ hlt) hr
    rw [hvalue] at hlexeme
    exact ⟨c, cs, rfl, hlexeme⟩

/-! ## Trivia -/

/-- What stands behind the start of a comment: its last characters, and trivia behind a line
break. -/
inductive InComment : List Char → List Char → Prop where
  | closed {body cs rest} (hbody : '\n' ∉ body) (h : Trivia cs rest) :
      InComment (body ++ '\n' :: cs) rest
  | last {body} (hbody : '\n' ∉ body) : InComment body []

theorem InComment.trivia {cs rest : List Char} (h : InComment cs rest) :
    Trivia ('/' :: '/' :: cs) rest := by
  cases h with
  | closed hbody h => exact .comment hbody h
  | last hbody => exact .lastComment hbody

theorem InComment.cons {c : Char} {cs rest : List Char} (hc : c ≠ '\n') (h : InComment cs rest) :
    InComment (c :: cs) rest := by
  cases h with
  | @closed body _ _ hbody h =>
    exact @closed (c :: body) _ _ (List.not_mem_cons_of_ne_of_not_mem hc.symm hbody) h
  | last hbody => exact .last (List.not_mem_cons_of_ne_of_not_mem hc.symm hbody)

/-- What is skipped in front of a lexeme, from inside a comment or not. -/
def Skipped : Bool → List Char → List Char → Prop
  | true => InComment
  | false => Trivia

theorem skipped_take (inComment : Bool) (cs : List Char) :
    Skipped inComment (cs.take (triviaLength inComment cs))
      (cs.drop (triviaLength inComment cs)) := by
  fun_induction triviaLength inComment cs with
  | case1 b =>
    cases b with
    | true => exact InComment.last List.not_mem_nil
    | false => exact Trivia.nil
  | case2 c cs ih =>
    by_cases hc : c = '\n'
    · subst hc
      exact @InComment.closed [] _ _ List.not_mem_nil ih
    · have hne : (c != '\n') = true := bne_iff_ne.2 hc
      rw [hne] at ih ⊢
      exact InComment.cons hc ih
  | case3 cs ih => exact InComment.trivia ih
  | case4 c cs _ hc ih => exact Trivia.blank hc ih
  | case5 => exact Trivia.nil

/-- What the lexer skips is trivia. -/
theorem trivia_take (cs : List Char) :
    Trivia (cs.take (triviaLength false cs)) (cs.drop (triviaLength false cs)) :=
  skipped_take false cs

theorem triviaLength_body {body : List Char} (hbody : '\n' ∉ body) (cs : List Char) :
    triviaLength true (body ++ cs) = body.length + triviaLength true cs := by
  induction body with
  | nil => simp
  | cons c body ih =>
    obtain ⟨hc, hbody⟩ := not_or.1 (mt List.mem_cons.2 hbody)
    have hne : (c != '\n') = true := bne_iff_ne.2 (Ne.symm hc)
    rw [List.cons_append, triviaLength, hne, ih hbody, List.length_cons]
    omega

theorem triviaLength_slashes (cs : List Char) :
    triviaLength false ('/' :: '/' :: cs) = triviaLength true cs + 2 := by rw [triviaLength]

/-- Trivia is skipped up to the first character of a lexeme. -/
theorem triviaLength_append {front rest : List Char} (h : Trivia front rest)
    (hr : ∀ c ∈ rest.head?, Solid c) : triviaLength false (front ++ rest) = front.length := by
  induction h with
  | @nil rest =>
    cases rest with
    | nil => rfl
    | cons c cs => exact triviaLength_of_solid (hr c rfl) cs
  | @blank c cs rest hc _ ih =>
    have hslash : c ≠ '/' := by
      rintro rfl
      revert hc
      decide
    rw [List.cons_append, triviaLength, if_pos hc, ih hr, List.length_cons]
    exact fun _ hc _ => hslash hc
  | @comment body cs rest hbody _ ih =>
    simp only [List.cons_append, List.append_assoc, triviaLength_slashes, triviaLength_body hbody,
      triviaLength, bne_self_eq_false, ih hr, List.length_cons, List.length_append]
  | @lastComment body hbody =>
    have hbody := triviaLength_body hbody []
    simp only [List.append_nil, triviaLength] at hbody
    rw [List.append_nil, triviaLength_slashes, hbody]
    rfl

/-! ## Texts -/

variable {text : List Char} {k : Nat}

theorem take_add_of_drop {us vs : List Char} (h : text.drop k = us ++ vs) :
    text.take (k + us.length) = text.take k ++ us ∧ text.drop (k + us.length) = vs := by
  rw [List.take_add, ← List.drop_drop, h, List.take_left, List.drop_left]
  exact ⟨rfl, rfl⟩

theorem isAt_of_drop {us vs : List Char} (h : text.drop k = us ++ vs) (hk : k ≤ text.length) :
    ((Position.start.afterAll (text.take k)).afterAll us).IsAt text (k + us.length) := by
  have hlen := congrArg List.length h
  rw [List.length_drop, List.length_append] at hlen
  rw [← Position.afterAll_append, ← (take_add_of_drop h).1]
  exact Position.isAt_afterAll (by omega)

/-- The tokens of a text tile it. -/
theorem tiles_of_tokensAt {ts : Tokens} (hk : k ≤ text.length)
    (h : tokensAt (Position.start.afterAll (text.take k)) (text.drop k) = .ok ts) :
    Tiles text k ts.withEnd := by
  induction hlen : (text.drop k).length using Nat.strongRecOn generalizing k ts with
  | ind len ih =>
    subst hlen
    have htrivia := trivia_take (text.drop k)
    cases hdrop : (text.drop k).drop (triviaLength false (text.drop k)) with
    | nil =>
      rw [tokensAt_finish hdrop] at h
      cases h
      have hall : (text.drop k).take (triviaLength false (text.drop k)) = text.drop k :=
        List.take_of_length_le (List.drop_eq_nil_iff.1 hdrop)
      rw [hall, hdrop] at htrivia
      have hat := isAt_of_drop (List.append_nil (text.drop k)).symm hk
      rw [List.length_drop, Nat.add_sub_cancel' hk] at hat
      refine .finish htrivia ?_
      rw [solidStart, hall]
      exact hat
    | cons c rest =>
      cases hlexeme : lexeme c rest with
      | error fault =>
        rw [tokensAt_error hdrop hlexeme] at h
        cases h
      | ok r =>
        obtain ⟨kind, m⟩ := r
        obtain ⟨hspells, hends⟩ := spells_of_lexeme hlexeme
        rw [tokensAt_token hdrop hlexeme] at h
        obtain ⟨us, hus, rfl⟩ := Parse.map_eq_ok_iff.1 h
        have hrest : c :: rest = (c :: rest.take m) ++ rest.drop m := by
          rw [List.cons_append, List.take_append_drop]
        have htext : text.drop k = (text.drop k).take (triviaLength false (text.drop k)) ++
            ((c :: rest.take m) ++ rest.drop m) := by
          rw [← hrest, ← hdrop, List.take_append_drop]
        rw [hdrop, hrest] at htrivia
        obtain ⟨htake, hbehind⟩ := take_add_of_drop htext
        obtain ⟨htake', hbehind'⟩ := take_add_of_drop hbehind
        have hat := isAt_of_drop htext hk
        refine .lexeme htext htrivia hspells hends hat (ih _ ?_ (isAt_of_drop hbehind hat.le).le ?_
          rfl)
        · rw [hbehind']
          exact length_lt_of_drop hdrop
        · rw [htake', hbehind', htake, Position.afterAll_append, Position.afterAll_append]
          exact hus

/-- A text that is tiled has the tokens of the tiling. -/
theorem tokensAt_of_tiles {l : List (Option Kind × Position)} (h : Tiles text k l)
    (hk : k ≤ text.length) :
    ∃ ts, tokensAt (Position.start.afterAll (text.take k)) (text.drop k) = .ok ts ∧
      ts.withEnd = l := by
  induction h with
  | @finish k p hfront hp =>
    have hlen := triviaLength_append hfront (by simp)
    rw [List.append_nil] at hlen
    have hat := isAt_of_drop (List.append_nil (text.drop k)).symm hk
    rw [List.length_drop, Nat.add_sub_cancel' hk] at hat
    refine ⟨_, tokensAt_finish (List.drop_eq_nil_iff.2 hlen.ge), ?_⟩
    rw [solidStart, hlen, List.take_length, hat.eq hp]
    rfl
  | @lexeme k p kind front chars rest ts htext hfront hkind hends hp h ih =>
    obtain ⟨c, cs, rfl, hc, hlexeme⟩ := lexeme_spells hkind hends
    obtain ⟨htake, hbehind⟩ := take_add_of_drop htext
    obtain ⟨htake', hbehind'⟩ := take_add_of_drop hbehind
    have hat := isAt_of_drop htext hk
    obtain ⟨us, hus, rfl⟩ := ih (isAt_of_drop hbehind hat.le).le
    have hsolid : ∀ d ∈ (c :: cs ++ rest).head?, Solid d := by
      rintro d ⟨⟩
      exact hc
    have hlen : triviaLength false (front ++ (c :: cs ++ rest)) =
        front.length + triviaLength false (c :: cs ++ rest) := by
      rw [triviaLength_append hfront hsolid, List.cons_append, triviaLength_of_solid hc,
        Nat.add_zero]
    rw [htake', hbehind', htake, Position.afterAll_append, Position.afterAll_append] at hus
    rw [htext, tokensAt_behind_trivia hlen, List.cons_append, tokensAt_of_lexeme hc hlexeme,
      List.take_left, List.drop_left, hus]
    refine ⟨_, rfl, ?_⟩
    rw [← hat.eq hp]
    rfl

end Lexer

namespace Lexes

theorem spells {k : Kind} {chars rest : List Char} {ks : List Kind} (hk : Spells k chars)
    (hr : k.EndsBefore rest) (h : Lexes rest ks) : Lexes (chars ++ rest) (k :: ks) := by
  intro p
  obtain ⟨c, cs, rfl, hc, hlexeme⟩ := Lexer.lexeme_spells hk hr
  obtain ⟨ts, hts, hkinds⟩ := h (p.afterAll (c :: cs))
  rw [List.cons_append, Lexer.tokensAt_of_lexeme hc hlexeme, List.take_left, List.drop_left, hts]
  exact ⟨_, rfl, congrArg (k :: ·) hkinds⟩

/-- Lexemes with single spaces between them are cut apart. -/
theorem words {ks : List Kind} {chars : List (List Char)} (h : List.Forall₂ Spells ks chars) :
    Lexes ([' '].intercalate chars) ks := by
  induction h with
  | nil => exact nil
  | @cons k w ks ws hk hrest ih =>
    cases ws with
    | nil =>
      cases hrest
      have hlexes := spells hk k.endsBefore_nil nil
      rw [List.append_nil] at hlexes
      simpa [List.intercalate] using hlexes
    | cons w' ws =>
      have hspace : [' '].intercalate (w :: w' :: ws) =
          w ++ ' ' :: [' '].intercalate (w' :: ws) := by
        simp [List.intercalate]
      rw [hspace]
      exact spells hk (k.endsBefore_space _) ih.space

end Lexes

/-- **Tokens tile their text.** A text has tokens if and only if it is tiled by their lexemes:
trivia and lexemes in turn, each lexeme as long as it can be, each token at the place of its first
character, and the end of the text behind the last of them. In the other direction, lexemes with
single spaces between them are cut into the tokens that they write. -/
theorem Tokens.ofText_tiles :
    (∀ text ts, Tokens.ofText text = .ok ts ↔ Tiles text.toList 0 ts.withEnd) ∧
    ∀ ks words, List.Forall₂ Spells ks words →
      ∃ ts, Tokens.ofText (String.ofList ([' '].intercalate words)) = .ok ts ∧
        ts.withEnd.map Prod.fst = ks.map some ++ [none] := by
  refine ⟨fun text ts => ⟨fun h => Lexer.tiles_of_tokensAt (Nat.zero_le _) h, fun h => ?_⟩,
    fun ks words h => ?_⟩
  · obtain ⟨us, hus, heq⟩ := Lexer.tokensAt_of_tiles h (Nat.zero_le _)
    obtain rfl := Tokens.withEnd_injective heq
    exact hus
  · obtain ⟨ts, hts, rfl⟩ := Lexes.words h Position.start
    rw [Tokens.ofText, String.toList_ofList]
    refine ⟨ts, hts, ?_⟩
    simp [Tokens.withEnd, Tokens.kinds]

/-- A number with zeros in front, a string that holds a quote, and symbols that would be another one
without the space. -/
theorem Tokens.ofText_tiles_words :
    let ks := [Kind.int 7, .string ['\\', '"'], .symbol .bang, .symbol .equalEqual]
    let words := ["007".toList, "\"\\\"\"".toList, "!".toList, "==".toList]
    List.Forall₂ Spells ks words ∧
      ∃ ts, Tokens.ofText (String.ofList ([' '].intercalate words)) = .ok ts ∧
        ts.withEnd.map Prod.fst = ks.map some ++ [none] := by
  intro ks words
  have hseven : DecimalNumeral "007".toList 7 :=
    ⟨by decide, [0, 0, 7], .cons (by decide) (.cons (by decide) (.cons (by decide) .nil)), rfl⟩
  have hwords : List.Forall₂ Spells ks words :=
    .cons (.int hseven (by decide)) (.cons (.string (.escaped .nil))
      (.cons (.symbol .bang) (.cons (.symbol .equalEqual) .nil)))
  exact ⟨hwords, ofText_tiles.2 ks words hwords⟩

end AccessPolicy

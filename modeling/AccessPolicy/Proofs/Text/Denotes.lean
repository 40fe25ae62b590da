import AccessPolicy.Proofs.Text.Escape
import AccessPolicy.Proofs.Text.Numeral
import AccessPolicy.Proofs.Token.Lexes

/-! # What a literal denotes

The raw text of a literal is a sequence of written characters: plain ones, one-letter escapes and
Unicode escapes. `Denotes` says so, with the numerals of Unicode escapes left open. Decoding accepts
exactly the sequences in which a plus sign may stand in front of the digits of such a numeral
(`decode_eq_ok_iff`), and the grammar without the sign leaves out the texts that have one
(`denotes_hexNumeral_iff`). A text is refused for its last backslash only if the backslash has
no partner, which is never so between the quotes of a token (`decode_ne_dangling`). -/

namespace AccessPolicy.Text

/-- The letter behind a backslash and the character that both stand for. -/
inductive EscapeLetter : Char → Char → Prop where
  | quote : EscapeLetter '"' '"'
  | backslash : EscapeLetter '\\' '\\'
  | lineFeed : EscapeLetter 'n' '\n'
  | carriageReturn : EscapeLetter 'r' '\r'
  | tab : EscapeLetter 't' '\t'
  | nul : EscapeLetter '0' '\x00'
  | apostrophe : EscapeLetter '\'' '\''
  | star : EscapeLetter '*' '*'

/-- The raw text of one character, with the given numerals for code points. -/
inductive Writes (numeral : List Char → Nat → Prop) : List Char → LiteralChar → Prop where
  | plain {c : Char} (hc : c ≠ '\\') : Writes numeral [c] ⟨c, false⟩
  | letter {d c : Char} (hd : EscapeLetter d c) : Writes numeral ['\\', d] ⟨c, true⟩
  | unicode {h : List Char} {c : Char} (hlen : h.length ≤ 6) (hn : numeral h c.toNat) :
    Writes numeral ('\\' :: 'u' :: '\x7b' :: (h ++ ['\x7d'])) ⟨c, true⟩

/-- The raw text of characters, one behind the other. -/
inductive Denotes (numeral : List Char → Nat → Prop) : List Char → List LiteralChar → Prop where
  | nil : Denotes numeral [] []
  | cons {raw rest : List Char} {l : LiteralChar} {ls : List LiteralChar}
    (hl : Writes numeral raw l) (hls : Denotes numeral rest ls) :
    Denotes numeral (raw ++ rest) (l :: ls)

theorem simpleEscape?_eq_some_iff {d c : Char} : simpleEscape? d = some c ↔ EscapeLetter d c := by
  constructor
  · intro h
    unfold simpleEscape? at h
    split at h
    all_goals cases h
    all_goals constructor
  · rintro (_ | _ | _ | _ | _ | _ | _ | _) <;> rfl

theorem EscapeLetter.ne_unicode {d c : Char} (hd : EscapeLetter d c) : d ≠ 'u' := by
  rintro rfl
  cases hd

variable {raw rest before after cs h hex : List Char} {l : LiteralChar} {ls : List LiteralChar}

/-! ## Unicode escapes -/

theorem byteLength_append (cs ds : List Char) :
    byteLength (cs ++ ds) = byteLength cs + byteLength ds := by
  induction cs with
  | nil => simp [byteLength]
  | cons c cs ih => simp [byteLength, ih, Nat.add_assoc]

theorem byteLength_eq_length (hcs : ∀ c ∈ cs, Inert c) : byteLength cs = cs.length := by
  induction cs with
  | nil => rfl
  | cons c cs ih =>
    obtain ⟨hc, hcs⟩ := List.forall_mem_cons.mp hcs
    rw [byteLength, ih hcs, hc.size, List.length_cons, Nat.add_comm]

theorem decodeUnicode_close {c : Char} (hc : scalar hex = .ok c) (rest : List Char) :
    decodeUnicode hex ('\x7d' :: rest) = (decode rest).map (⟨c, true⟩ :: ·) := by
  rw [decodeUnicode, hc]

theorem decodeUnicode_close_error {e : EscapeFault} (he : scalar hex = .error e)
    (rest : List Char) : decodeUnicode hex ('\x7d' :: rest) = .error e := by
  rw [decodeUnicode, he]

theorem decodeUnicode_next {c : Char} (hc : c ≠ '\x7d') (hex cs : List Char) :
    decodeUnicode hex (c :: cs) =
      if byteLength hex = 6 then .error .unterminated else decodeUnicode (hex ++ [c]) cs := by
  rw [decodeUnicode]
  exact hc

theorem decodeUnicode_numeral {c : Char} (hh : ∀ d ∈ h, Inert d)
    (hlen : byteLength hex + h.length ≤ 6) (hc : scalar (hex ++ h) = .ok c) (rest : List Char) :
    decodeUnicode hex (h ++ '\x7d' :: rest) = (decode rest).map (⟨c, true⟩ :: ·) := by
  induction h generalizing hex with
  | nil =>
    rw [List.append_nil] at hc
    exact decodeUnicode_close hc rest
  | cons d h ih =>
    obtain ⟨hd, hh⟩ := List.forall_mem_cons.mp hh
    rw [List.length_cons] at hlen
    have hroom : byteLength hex ≠ 6 := by omega
    rw [List.cons_append, decodeUnicode_next hd.ne_close, if_neg hroom]
    refine ih hh ?_ ?_
    · rw [byteLength_append, byteLength, byteLength, hd.size]
      omega
    · rw [List.append_assoc]
      exact hc

theorem scalar_ne_dangling (h : List Char) : scalar h ≠ .error .dangling := by
  unfold scalar
  split
  · nofun
  · split <;> nofun

/-- A Unicode escape is refused, but not for a backslash, or has a numeral, and there was room for
each of its characters. -/
theorem decodeUnicode_cases (hex cs : List Char) :
    (∃ e, decodeUnicode hex cs = .error e ∧ e ≠ .dangling) ∨
      ∃ (h : List Char) (c : Char) (rest : List Char), cs = h ++ '\x7d' :: rest ∧
        SignedNumeral (hex ++ h) c.toNat ∧
        ∀ us v vs, h = us ++ v :: vs → byteLength (hex ++ us) ≠ 6 := by
  induction cs generalizing hex with
  | nil => exact .inl ⟨.unterminated, by rw [decodeUnicode], nofun⟩
  | cons c cs ih =>
    by_cases hc : c = '\x7d'
    · subst hc
      cases hs : scalar hex with
      | error e =>
        refine .inl ⟨e, decodeUnicode_close_error hs cs, ?_⟩
        rintro rfl
        exact scalar_ne_dangling hex hs
      | ok c =>
        have hn : SignedNumeral (hex ++ []) c.toNat := by
          rw [List.append_nil]
          exact scalar_eq_ok_iff.mp hs
        refine .inr ⟨[], c, cs, rfl, hn, ?_⟩
        intro us v vs h
        simp at h
    · by_cases hroom : byteLength hex = 6
      · exact .inl ⟨.unterminated, by rw [decodeUnicode_next hc, if_pos hroom], nofun⟩
      · rcases ih (hex ++ [c]) with ⟨e, he, hne⟩ | ⟨h, d, rest, rfl, hn, hall⟩
        · exact .inl ⟨e, by rw [decodeUnicode_next hc, if_neg hroom, he], hne⟩
        · refine .inr ⟨c :: h, d, rest, rfl, by simpa using hn, ?_⟩
          intro us v vs hus
          cases us with
          | nil => simpa using hroom
          | cons u us =>
            obtain ⟨rfl, rfl⟩ := List.cons.inj hus
            simpa using hall us v vs rfl

/-- Behind the brace of a Unicode escape stands a numeral of at most six characters, or the text is
refused. -/
theorem numeral_or_refused (cs : List Char) :
    (∃ e, decodeUnicode [] cs = .error e ∧ e ≠ .dangling) ∨
      ∃ (h : List Char) (c : Char) (rest : List Char), cs = h ++ '\x7d' :: rest ∧
        SignedNumeral h c.toNat ∧ h.length ≤ 6 := by
  rcases decodeUnicode_cases [] cs with hrefused | ⟨h, c, rest, hcs, hn, hroom⟩
  · exact .inl hrefused
  · rw [List.nil_append] at hn
    refine .inr ⟨h, c, rest, hcs, hn, ?_⟩
    by_contra hlong
    have hlt : 6 < h.length := by omega
    have hsix : byteLength (h.take 6) = 6 := by
      rw [byteLength_eq_length fun d hd => hn.inert d (List.mem_of_mem_take hd), List.length_take]
      omega
    refine hroom (h.take 6) h[6] (h.drop 7) ?_ hsix
    rw [← List.drop_eq_getElem_cons hlt, List.take_append_drop]

/-! ## One character -/

theorem unicode_append (h cs : List Char) :
    '\\' :: 'u' :: '\x7b' :: (h ++ ['\x7d']) ++ cs =
      '\\' :: 'u' :: '\x7b' :: (h ++ '\x7d' :: cs) := by
  simp

/-- The raw text of a character decodes to it, whatever follows. -/
theorem Writes.decode_append (h : Writes SignedNumeral raw l) (cs : List Char) :
    decode (raw ++ cs) = (decode cs).map (l :: ·) := by
  cases h with
  | plain hc => exact decode_plain hc cs
  | letter hd => exact decode_simple (simpleEscape?_eq_some_iff.mpr hd) hd.ne_unicode cs
  | @unicode h c hlen hn =>
    rw [unicode_append, decode]
    have hscalar : scalar ([] ++ h) = .ok c := scalar_eq_ok_iff.mpr hn
    exact decodeUnicode_numeral hn.inert (by simpa [byteLength] using hlen) hscalar cs

theorem Writes.ne_nil (h : Writes SignedNumeral raw l) : raw ≠ [] := by
  cases h <;> simp

/-- The text starts with the raw text of a character. -/
def Starts (raw : List Char) : Prop :=
  ∃ piece l rest, Writes SignedNumeral piece l ∧ raw = piece ++ rest

/-- The text is refused, and for a backslash without a partner only if it is one. -/
def Refused (raw : List Char) : Prop :=
  ∃ e, decode raw = .error e ∧ (e = .dangling → raw = ['\\'])

theorem starts_or_refused_unicode (cs : List Char) :
    Starts ('\\' :: 'u' :: cs) ∨ Refused ('\\' :: 'u' :: cs) := by
  by_cases hbrace : cs.head? = some '\x7b'
  · obtain ⟨cs, rfl⟩ := List.head?_eq_some_iff.mp hbrace
    rcases numeral_or_refused cs with ⟨e, he, hne⟩ | ⟨h, c, rest, rfl, hn, hlen⟩
    · refine .inr ⟨e, ?_, fun hd => absurd hd hne⟩
      rw [decode, he]
    · exact .inl ⟨_, _, rest, .unicode hlen hn, by simp⟩
  · refine .inr ⟨.braceExpected, ?_, ?_⟩
    · rw [decode]
      intro cs hcs
      rw [hcs] at hbrace
      exact hbrace rfl
    · intro hd
      cases hd

theorem starts_or_refused_slash (cs : List Char) : Starts ('\\' :: cs) ∨ Refused ('\\' :: cs) := by
  cases cs with
  | nil => exact .inr ⟨.dangling, rfl, fun _ => rfl⟩
  | cons d cs =>
    by_cases hu : d = 'u'
    · subst hu
      exact starts_or_refused_unicode cs
    · cases hd : simpleEscape? d with
      | some c => exact .inl ⟨_, _, cs, .letter (simpleEscape?_eq_some_iff.mp hd), rfl⟩
      | none =>
        refine .inr ⟨.unknown d, ?_, ?_⟩
        · rw [decode]
          · rw [hd]
          · exact fun _ h => absurd h hu
          · exact fun h => absurd h hu
        · intro hd
          cases hd

theorem starts_or_refused (h : raw ≠ []) : Starts raw ∨ Refused raw := by
  cases raw with
  | nil => exact absurd rfl h
  | cons c cs =>
    by_cases hc : c = '\\'
    · subst hc
      exact starts_or_refused_slash cs
    · exact .inl ⟨[c], _, cs, .plain hc, rfl⟩

/-! ## Sequences of characters -/

theorem Denotes.decode_append (h : Denotes SignedNumeral raw ls) (cs : List Char) :
    decode (raw ++ cs) = (decode cs).map (ls ++ ·) := by
  induction h with
  | nil =>
    cases hd : decode cs <;> simp [hd, Except.map]
  | cons hl _ ih =>
    rw [List.append_assoc, hl.decode_append, ih]
    cases decode cs <;> rfl

theorem Denotes.decode_eq (h : Denotes SignedNumeral raw ls) : decode raw = .ok ls := by
  have hraw := h.decode_append []
  rw [List.append_nil] at hraw
  rw [hraw, decode, Except.map, List.append_nil]

/-- A text denotes characters up to its end, or up to a place where it is refused. -/
theorem denotes_or_refused (raw : List Char) :
    (∃ ls, Denotes SignedNumeral raw ls) ∨
      ∃ before ls after, Denotes SignedNumeral before ls ∧ Refused after ∧
        raw = before ++ after := by
  -- The raw text of the first character is not empty, so the induction is on the length.
  induction hn : raw.length using Nat.strongRecOn generalizing raw with
  | ind n ih =>
    by_cases hnil : raw = []
    · subst hnil
      exact .inl ⟨[], .nil⟩
    rcases starts_or_refused hnil with ⟨piece, l, rest, hl, rfl⟩ | hrefused
    · have hpos : 0 < piece.length := List.length_pos_iff.mpr hl.ne_nil
      have hlt : rest.length < n := by
        rw [← hn, List.length_append]
        omega
      rcases ih rest.length hlt rest rfl with ⟨ls, hls⟩ | ⟨before, ls, after, hls, href, rfl⟩
      · exact .inl ⟨l :: ls, .cons hl hls⟩
      · exact .inr ⟨piece ++ before, l :: ls, after, .cons hl hls, href, by simp⟩
    · exact .inr ⟨[], [], raw, .nil, hrefused, rfl⟩

theorem decode_eq_ok_iff : decode raw = .ok ls ↔ Denotes SignedNumeral raw ls := by
  refine ⟨fun h => ?_, Denotes.decode_eq⟩
  rcases denotes_or_refused raw with ⟨ms, hms⟩ | ⟨before, ms, after, hms, ⟨e, he, -⟩, rfl⟩
  · obtain rfl := Except.ok.inj (hms.decode_eq.symm.trans h)
    exact hms
  · rw [hms.decode_append, he] at h
    cases h

/-! ## Backslashes -/

theorem rawLength_inert (hcs : ∀ c ∈ cs, Inert c) (ds : List Char) :
    Lexer.rawLength (cs ++ ds) = (Lexer.rawLength ds).map (· + cs.length) := by
  induction cs with
  | nil => simp
  | cons c cs ih =>
    obtain ⟨hc, hcs⟩ := List.forall_mem_cons.mp hcs
    rw [List.cons_append, rawLength_plain hc.ne_slash hc.ne_quote, ih hcs, Option.map_map]
    rfl

/-- The raw text of a character is a closing quote, or the literal goes on behind it. -/
theorem Writes.rawLength_append (h : Writes SignedNumeral raw l) (cs : List Char) :
    raw = ['"'] ∨ Lexer.rawLength (raw ++ cs) = (Lexer.rawLength cs).map (· + raw.length) := by
  cases h with
  | @plain c hc =>
    by_cases hq : c = '"'
    · exact .inl (by rw [hq])
    · exact .inr (rawLength_plain hc hq cs)
  | @letter d c hd => exact .inr (rawLength_slash d cs)
  | unicode hlen hn =>
    right
    rw [unicode_append, rawLength_slash, rawLength_plain (by decide) (by decide),
      rawLength_inert hn.inert, rawLength_plain (by decide) (by decide)]
    cases Lexer.rawLength cs with
    | none => rfl
    | some n =>
      simp only [Option.map_some, List.length_cons, List.length_append, List.length_nil]
      congr 1
      omega

/-- A literal closes within the raw text of characters, or goes on behind it. -/
theorem Denotes.rawLength_append (h : Denotes SignedNumeral raw ls) {n : Nat}
    (hn : Lexer.rawLength (raw ++ cs) = some n) :
    n < raw.length ∨ ∃ m, Lexer.rawLength cs = some m ∧ n = m + raw.length := by
  induction h generalizing n with
  | nil => exact .inr ⟨n, hn, rfl⟩
  | @cons raw rest l ls hl _ ih =>
    rw [List.append_assoc] at hn
    rw [List.length_append]
    rcases hl.rawLength_append (rest ++ cs) with rfl | hgoes
    · rw [List.singleton_append, Lexer.rawLength] at hn
      cases hn
      exact .inl (by simp)
    · rw [hgoes, Option.map_eq_some_iff] at hn
      obtain ⟨k, hk, rfl⟩ := hn
      rcases ih hk with hlt | ⟨m, hm, rfl⟩
      · exact .inl (by omega)
      · exact .inr ⟨m, hm, by omega⟩

/-- Between the quotes of a literal every backslash has a partner. -/
theorem decode_ne_dangling (h : Lexer.rawLength (raw ++ ['"']) = some raw.length) :
    decode raw ≠ .error .dangling := by
  intro hd
  rcases denotes_or_refused raw with ⟨ls, hls⟩ | ⟨before, ls, after, hls, ⟨e, he, hlast⟩, rfl⟩
  · cases hd.symm.trans hls.decode_eq
  · have hafter : after = ['\\'] := by
      rw [hls.decode_append, he] at hd
      exact hlast (Except.error.inj hd)
    subst hafter
    rw [List.append_assoc] at h
    rcases hls.rawLength_append h with hlt | ⟨m, hm, -⟩
    · rw [List.length_append] at hlt
      omega
    · cases hm

/-! ## Numerals without a sign -/

theorem Writes.signed (h : Writes HexNumeral raw l) : Writes SignedNumeral raw l := by
  cases h with
  | plain hc => exact .plain hc
  | letter hd => exact .letter hd
  | unicode hlen hn => exact .unicode hlen (.unsigned hn)

theorem Denotes.signed (h : Denotes HexNumeral raw ls) : Denotes SignedNumeral raw ls := by
  induction h with
  | nil => exact .nil
  | cons hl _ ih => exact .cons hl.signed ih

/-- The text has a Unicode escape whose numeral starts with a plus sign. -/
def HasSign (raw : List Char) : Prop :=
  ∃ before ls after, Denotes SignedNumeral before ls ∧
    raw = before ++ '\\' :: 'u' :: '\x7b' :: '+' :: after

/-- Up to its brace a numeral is told by the text. -/
theorem numeral_unique {h' cs' : List Char} {n n' : Nat} (hn : SignedNumeral h n)
    (hn' : SignedNumeral h' n') (heq : h ++ '\x7d' :: cs = h' ++ '\x7d' :: cs') : h = h' := by
  have hfree : ∀ {h n}, SignedNumeral h n → ∀ cs,
      (h ++ '\x7d' :: cs).takeWhile (· ≠ '\x7d') = h := by
    intro h n hn cs
    rw [List.takeWhile_append_of_pos]
    · simp
    · intro c hc
      simpa using (hn.inert c hc).ne_close
  rw [← hfree hn cs, heq, hfree hn' cs']

/-- The raw text of the first character is told by the text. -/
theorem Writes.piece_unique {raw' cs' : List Char} {l' : LiteralChar}
    (h : Writes SignedNumeral raw l) (h' : Writes SignedNumeral raw' l')
    (heq : raw ++ cs = raw' ++ cs') : raw = raw' := by
  cases h with
  | plain hc =>
    cases h' with
    | plain => exact congrArg ([·]) (List.cons.inj heq).1
    | letter => exact absurd (List.cons.inj heq).1 hc
    | unicode => exact absurd (List.cons.inj heq).1 hc
  | letter hd =>
    cases h' with
    | plain hc => exact absurd (List.cons.inj heq).1.symm hc
    | letter => rw [(List.cons.inj (List.cons.inj heq).2).1]
    | unicode => exact absurd (List.cons.inj (List.cons.inj heq).2).1 hd.ne_unicode
  | unicode hlen hn =>
    cases h' with
    | plain hc => exact absurd (List.cons.inj heq).1.symm hc
    | letter hd => exact absurd (List.cons.inj (List.cons.inj heq).2).1.symm hd.ne_unicode
    | unicode hlen' hn' =>
      rw [unicode_append, unicode_append] at heq
      simp only [List.cons.injEq, true_and] at heq
      rw [numeral_unique hn hn' heq]

theorem Writes.not_plus (h : Writes HexNumeral raw l) (cs cs' : List Char) :
    raw ++ cs ≠ '\\' :: 'u' :: '\x7b' :: '+' :: cs' := by
  intro heq
  cases h with
  | plain hc => exact hc (List.cons.inj heq).1
  | letter hd => exact hd.ne_unicode (List.cons.inj (List.cons.inj heq).2).1
  | @unicode h c hlen hn =>
    cases h with
    | nil => exact hn.ne_nil rfl
    | cons d h =>
      simp only [List.cons_append, List.cons.injEq, true_and] at heq
      rw [heq.1] at hn
      exact hn.not_plus

theorem Denotes.not_hasSign (h : Denotes HexNumeral raw ls) : ¬ HasSign raw := by
  rintro ⟨before, ms, after, hbefore, hraw⟩
  induction hbefore generalizing raw ls with
  | nil =>
    cases h with
    | nil => cases hraw
    | cons hl _ => exact hl.not_plus _ _ hraw
  | cons hl hls ih =>
    rw [List.append_assoc] at hraw
    cases h with
    | nil => exact hl.ne_nil (List.append_eq_nil_iff.mp hraw.symm).1
    | cons hl' hls' =>
      obtain rfl := hl'.signed.piece_unique hl hraw
      exact ih hls' (List.append_cancel_left hraw)

theorem HasSign.append (h : HasSign rest) (hl : Writes SignedNumeral raw l) :
    HasSign (raw ++ rest) := by
  obtain ⟨before, ms, after, hms, rfl⟩ := h
  exact ⟨raw ++ before, l :: ms, after, .cons hl hms, by simp⟩

theorem Writes.unsigned (h : Writes SignedNumeral raw l) (hfree : ¬ HasSign (raw ++ rest)) :
    Writes HexNumeral raw l := by
  cases h with
  | plain hc => exact .plain hc
  | letter hd => exact .letter hd
  | unicode hlen hn =>
    cases hn with
    | unsigned hn => exact .unicode hlen hn
    | plus hn => exact absurd ⟨[], [], _, .nil, rfl⟩ hfree

/-- Without the sign the grammar leaves out the texts that have one. -/
theorem denotes_hexNumeral_iff :
    Denotes HexNumeral raw ls ↔ Denotes SignedNumeral raw ls ∧ ¬ HasSign raw := by
  constructor
  · exact fun h => ⟨h.signed, h.not_hasSign⟩
  · rintro ⟨h, hfree⟩
    induction h with
    | nil => exact .nil
    | cons hl _ ih =>
      have hrest := fun hsign : HasSign _ => hfree (hsign.append hl)
      exact .cons (hl.unsigned hfree) (ih hrest)

/-! ## Strings, patterns and tokens -/

/-- Strings and patterns are decoded by the grammar: both accept the texts that have a meaning, and
a pattern differs from a string in the star that no backslash escapes. -/
structure DecodedBy (numeral : List Char → Nat → Prop) (raw : List Char) : Prop where
  string (s : List Char) : unescape raw = .ok s ↔
    ∃ ls, Denotes numeral raw ls ∧ ls.map LiteralChar.char = s
  pattern (p : Pattern) : Pattern.compile raw = .ok p ↔
    ∃ ls, Denotes numeral raw ls ∧
      ls.map (fun l => if l = ⟨'*', false⟩ then .wildcard else .char l.char) = p

theorem elemOf_eq (l : LiteralChar) :
    Pattern.elemOf l = if l = ⟨'*', false⟩ then .wildcard else .char l.char := by
  obtain ⟨c, escaped⟩ := l
  simp only [Pattern.elemOf, LiteralChar.mk.injEq]

theorem decodedBy_of_iff {numeral : List Char → Nat → Prop}
    (h : ∀ ls, decode raw = .ok ls ↔ Denotes numeral raw ls) : DecodedBy numeral raw where
  string s := by
    simp only [unescape, Parse.map_eq_ok_iff, h]
  pattern p := by
    simp only [Pattern.compile, Parse.map_eq_ok_iff, h, funext elemOf_eq]

/-- The grammar of plain hexadecimal digits fails on the texts with a sign that are accepted. -/
theorem decodedBy_hexNumeral_iff :
    DecodedBy HexNumeral raw ↔ ¬ (HasSign raw ∧ ∃ s, unescape raw = .ok s) := by
  constructor
  · rintro h ⟨hsign, s, hs⟩
    obtain ⟨ls, hls, -⟩ := (h.string s).mp hs
    exact hls.not_hasSign hsign
  · intro h
    have hfree : ∀ ls, Denotes SignedNumeral raw ls → ¬ HasSign raw := by
      intro ls hls hsign
      exact h ⟨hsign, _, Parse.map_eq_ok_iff.mpr ⟨ls, hls.decode_eq, rfl⟩⟩
    refine decodedBy_of_iff fun ls => ?_
    rw [decode_eq_ok_iff, denotes_hexNumeral_iff]
    exact ⟨fun hls => ⟨hls, hfree ls hls⟩, And.left⟩

theorem decode_token_ne_dangling {text : String} {ts : Tokens} (h : Tokens.ofText text = .ok ts)
    {t : Token} (ht : t ∈ ts.list) (hraw : t.kind = .string raw) :
    decode raw ≠ .error .dangling := by
  have hspell : (Kind.string raw).Spellable := by
    rw [← hraw]
    exact Lexer.spellable_of_tokensAt h _ (List.mem_map_of_mem ht)
  exact decode_ne_dangling hspell

/-- **Literals are decoded by their grammar**, with an optional sign in front of the digits of a
Unicode escape; the grammar without the sign is exact but for the texts that are accepted with one.
Escaping is undone by decoding, and the literal of a token never ends in a backslash without a
partner. -/
theorem literal_denotes (raw : List Char) :
    DecodedBy SignedNumeral raw ∧
      (DecodedBy HexNumeral raw ↔ ¬ (HasSign raw ∧ ∃ s, unescape raw = .ok s)) ∧
      unescape (escape raw) = .ok raw ∧
      ∀ text ts, Tokens.ofText text = .ok ts → ∀ t ∈ ts.list, t.kind = .string raw →
        decode raw ≠ .error .dangling :=
  ⟨decodedBy_of_iff fun _ => decode_eq_ok_iff, decodedBy_hexNumeral_iff, unescape_escape raw,
    fun _ _ h _ ht hraw => decode_token_ne_dangling h ht hraw⟩

/-- The literal of two backslashes. -/
theorem literal_denotes_backslash_pair :
    Tokens.ofText "\"\\\\\"" = .ok ⟨[⟨.string ['\\', '\\'], ⟨1, 1⟩⟩], ⟨1, 5⟩⟩ ∧
      unescape ['\\', '\\'] = .ok ['\\'] ∧ decode ['\\', '\\'] ≠ .error .dangling := by
  have htokens : Tokens.ofText "\"\\\\\"" =
      .ok ⟨[⟨.string ['\\', '\\'], ⟨1, 1⟩⟩], ⟨1, 5⟩⟩ := by decide +kernel
  obtain ⟨hdecoded, -, -, hpaired⟩ := literal_denotes ['\\', '\\']
  have hdenotes : Denotes SignedNumeral ['\\', '\\'] [⟨'\\', true⟩] :=
    .cons (.letter .backslash) .nil
  exact ⟨htokens, (hdecoded.string _).mpr ⟨_, hdenotes, rfl⟩,
    hpaired _ _ htokens _ (List.mem_singleton.mpr rfl) rfl⟩

/-- A sign in front of the digits is decoded, but the grammar of plain digits has none. -/
theorem sign_decoded :
    unescape "\\u\x7b+41\x7d".toList = .ok ['A'] ∧
      ¬ ∃ ls, Denotes HexNumeral "\\u\x7b+41\x7d".toList ls := by
  refine ⟨by decide +kernel, ?_⟩
  rintro ⟨ls, h⟩
  exact h.not_hasSign ⟨[], [], ['4', '1', '\x7d'], .nil, rfl⟩

end AccessPolicy.Text

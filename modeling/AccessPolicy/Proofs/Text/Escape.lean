import AccessPolicy.Pattern
import AccessPolicy.Text.Quoted
import AccessPolicy.Token.Lexer

/-! # Escaped text is read back

The raw text of a literal is written piece by piece: one piece for each character, or for each
element of a pattern. A piece decodes to one character whatever follows it, and it does not close
the literal, so both hold of all pieces together. -/

namespace AccessPolicy

namespace Text

variable {α : Type}

theorem decode_simple {d c : Char} (hd : simpleEscape? d = some c) (hu : d ≠ 'u')
    (cs : List Char) :
    decode ('\\' :: d :: cs) = (decode cs).map (⟨c, true⟩ :: ·) := by
  rw [decode]
  · rw [hd]
  · exact fun _ h => absurd h hu
  · exact fun h => absurd h hu

theorem decode_plain {c : Char} (hc : c ≠ '\\') (cs : List Char) :
    decode (c :: cs) = (decode cs).map (⟨c, false⟩ :: ·) := by
  rw [decode]
  all_goals intros; contradiction

theorem rawLength_slash (d : Char) (cs : List Char) :
    Lexer.rawLength ('\\' :: d :: cs) = (Lexer.rawLength cs).map (· + 2) := by
  rw [Lexer.rawLength]

theorem rawLength_plain {c : Char} (hslash : c ≠ '\\') (hquote : c ≠ '"') (cs : List Char) :
    Lexer.rawLength (c :: cs) = (Lexer.rawLength cs).map (· + 1) := by
  rw [Lexer.rawLength]
  all_goals intros; contradiction

/-! ## Pieces -/

/-- The raw text stands for one character, which `f` takes to `a`. -/
structure Piece (f : LiteralChar → α) (a : α) (raw : List Char) : Prop where
  decode : ∀ cs, ∃ d, Text.decode (raw ++ cs) = (Text.decode cs).map (d :: ·) ∧ f d = a
  rawLength : ∀ cs, Lexer.rawLength (raw ++ cs) = (Lexer.rawLength cs).map (· + raw.length)

variable {f : LiteralChar → α} {write : α → List Char}

theorem Piece.decode_flatMap (h : ∀ a, Piece f a (write a)) (l : List α) :
    (Text.decode (l.flatMap write)).map (·.map f) = .ok l := by
  induction l with
  | nil => rfl
  | cons a l ih =>
    obtain ⟨d, hd, rfl⟩ := (h a).decode (l.flatMap write)
    rw [List.flatMap_cons, hd]
    cases hds : Text.decode (l.flatMap write) with
    | error e =>
      rw [hds] at ih
      cases ih
    | ok ds =>
      rw [hds] at ih
      have hl : ds.map f = l := Except.ok.inj ih
      simp [Except.map, hl]

theorem Piece.rawLength_flatMap (h : ∀ a, Piece f a (write a)) (l : List α) :
    Lexer.rawLength (l.flatMap write ++ ['"']) = some (l.flatMap write).length := by
  induction l with
  | nil => rfl
  | cons a l ih =>
    rw [List.flatMap_cons, List.append_assoc, (h a).rawLength, ih]
    simp [Nat.add_comm]

theorem Piece.simple {d c : Char} (hd : simpleEscape? d = some c) (hu : d ≠ 'u') :
    Piece f (f ⟨c, true⟩) ['\\', d] where
  decode cs := ⟨_, decode_simple hd hu cs, rfl⟩
  rawLength cs := rawLength_slash d cs

theorem Piece.plain {c : Char} (hslash : c ≠ '\\') (hquote : c ≠ '"') :
    Piece f (f ⟨c, false⟩) [c] where
  decode cs := ⟨_, decode_plain hslash cs, rfl⟩
  rawLength cs := rawLength_plain hslash hquote cs

/-! ## Strings -/

theorem escapeChar_cases (c : Char) :
    (∃ d, escapeChar c = ['\\', d] ∧ simpleEscape? d = some c ∧ d ≠ 'u') ∨
      (escapeChar c = [c] ∧ c ≠ '\\' ∧ c ≠ '"') := by
  unfold escapeChar
  split
  case h_7 hquote hslash _ _ _ _ => exact .inr ⟨rfl, hslash, hquote⟩
  all_goals exact .inl ⟨_, rfl, rfl, by decide⟩

/-- What reads a character in the same way whether it was escaped or not reads it so. -/
theorem piece_escapeChar {c : Char} {a : α} (h : ∀ b, f ⟨c, b⟩ = a) :
    Piece f a (escapeChar c) := by
  obtain ⟨d, hc, hd, hu⟩ | ⟨hc, hslash, hquote⟩ := escapeChar_cases c
  · rw [hc, ← h true]
    exact .simple hd hu
  · rw [hc, ← h false]
    exact .plain hslash hquote

theorem piece_char (c : Char) : Piece LiteralChar.char c (escapeChar c) :=
  piece_escapeChar fun _ => rfl

/-- **Escaped text denotes the text.** -/
theorem unescape_escape (cs : List Char) : unescape (escape cs) = .ok cs :=
  Piece.decode_flatMap piece_char cs

theorem escape_injective {cs ds : List Char} (h : escape cs = escape ds) : cs = ds :=
  Except.ok.inj ((unescape_escape cs).symm.trans ((congrArg unescape h).trans (unescape_escape ds)))

theorem rawLength_escape (cs : List Char) :
    Lexer.rawLength (escape cs ++ ['"']) = some (escape cs).length :=
  Piece.rawLength_flatMap piece_char cs

theorem escapeChar_quote {c : Char} {before behind : List Char}
    (h : escapeChar c = before ++ '"' :: behind) : before = ['\\'] := by
  obtain ⟨d, hc, -, -⟩ | ⟨hc, -, hquote⟩ := escapeChar_cases c
  · rw [hc] at h
    match before, h with
    | [], h => cases h
    | [b], h => rw [(List.cons.inj h).1]
    | _ :: _ :: _, h => simp at h
  · rw [hc] at h
    match before, h with
    | [], h => exact absurd (List.cons.inj h).1 hquote
    | _ :: _, h => simp at h

/-- A quote in an escaped text stands behind a backslash. -/
theorem escape_quote {cs before behind : List Char} (h : escape cs = before ++ '"' :: behind) :
    ∃ us, before = us ++ ['\\'] := by
  induction cs generalizing before with
  | nil => simp at h
  | cons c cs ih =>
    rw [escape_cons] at h
    -- The quote stands in what is written for `c`, or behind it.
    obtain ⟨us, rfl, hus⟩ | ⟨vs, hc, hvs⟩ := List.append_eq_append_iff.1 h
    · obtain ⟨us', rfl⟩ := ih hus
      exact ⟨escapeChar c ++ us', by simp⟩
    · cases vs with
      | nil =>
        obtain ⟨us, hus⟩ := @ih [] hvs.symm
        simp at hus
      | cons v vs =>
        obtain ⟨rfl, -⟩ := List.cons.inj hvs
        exact ⟨[], escapeChar_quote hc⟩

end Text

namespace Pattern

/-- The raw text of one element; a literal star stands behind a backslash. -/
def elemRaw : PatternElem → List Char
  | .wildcard => ['*']
  | .char c => if c = '*' then ['\\', '*'] else Text.escapeChar c

def raw (p : Pattern) : List Char := p.flatMap elemRaw

theorem piece_elem (e : PatternElem) : Text.Piece elemOf e (elemRaw e) := by
  cases e with
  | wildcard => exact @Text.Piece.plain _ elemOf '*' (by decide) (by decide)
  | char c =>
    by_cases hc : c = '*'
    · subst hc
      exact @Text.Piece.simple _ elemOf '*' '*' rfl (by decide)
    · rw [elemRaw, if_neg hc]
      exact Text.piece_escapeChar fun b => by simp [elemOf, hc]

/-- **The raw text of a pattern denotes the pattern.** -/
theorem compile_raw (p : Pattern) : compile (raw p) = .ok p :=
  Text.Piece.decode_flatMap piece_elem p

theorem rawLength_raw (p : Pattern) : Lexer.rawLength (raw p ++ ['"']) = some (raw p).length :=
  Text.Piece.rawLength_flatMap piece_elem p

end Pattern

end AccessPolicy

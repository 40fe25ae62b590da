import AccessPolicy.Expr.Parser
import AccessPolicy.Proofs.Token.Lexes

/-! # Laid out tokens

Tokens as a text with spaces where a reader expects them: none inside brackets, before commas,
around the separators of names and behind a prefix. Tokens touch only where the first one ends
before the second, so a laid out text is cut back into its tokens. -/

namespace AccessPolicy

/-- No space stands behind the symbol. -/
def Symbol.opens : Symbol → Bool
  | .at | .leftParen | .leftBracket | .colonColon | .dot => true
  | _ => false

/-- No space stands before the symbol. -/
def Symbol.closes : Symbol → Bool
  | .rightParen | .rightBracket | .comma | .semicolon | .colon | .colonColon | .dot => true
  | _ => false

/-- No space stands between the tokens. -/
def Kind.touches : Kind → Kind → Bool
  | .symbol .colon, _ => false
  | .symbol .bang, .symbol .leftParen => true
  | .symbol .minus, .int _ => true
  | .symbol .rightParen, .symbol .leftBracket => true
  | .ident word, .symbol .leftParen => decide (word ∉ Parse.reserved)
  | .symbol s, .symbol t => s.opens || t.closes
  | .symbol s, _ => s.opens
  | _, .symbol t => t.closes
  | _, _ => false

def layout : List Kind → List Char
  | [] => []
  | [k] => k.spelling
  | k :: k' :: ks =>
    k.spelling ++ if k.touches k' then layout (k' :: ks) else ' ' :: layout (k' :: ks)

theorem Kind.endsBefore_of_longer? {s : Symbol} (h : s.longer? = none) (rest : List Char) :
    (Kind.symbol s).EndsBefore rest := by
  simp [EndsBefore, h]

theorem Symbol.longer?_of_opens {s : Symbol} (h : s.opens = true) : s.longer? = none := by
  cases s <;> simp_all [opens, longer?]

/-- A symbol that has a longer form is a colon, or goes on with a sign of equality. -/
theorem Symbol.of_longer? {s : Symbol} {c : Char} (h : s.longer? = some c) :
    s = .colon ∨ c = '=' := by
  cases s <;> simp_all [longer?, eq_comm]

theorem Kind.endsBefore_closes {t : Symbol} (h : t.closes = true) {k : Kind}
    (hk : k ≠ .symbol .colon) (rest : List Char) : k.EndsBefore (t.text.toList ++ rest) := by
  have hhead : ∀ c ∈ (t.text.toList ++ rest).head?,
      Lexer.isIdentChar c = false ∧ c.isDigit = false ∧ c ≠ '=' := by
    intro c hc
    cases t <;> cases h <;> cases hc <;> decide
  cases k with
  | ident name => exact fun c hc => (hhead c hc).1
  | string raw => trivial
  | int n => exact fun c hc => (hhead c hc).2.1
  | symbol s =>
    intro c hc hlonger
    obtain rfl | heq := Symbol.of_longer? hlonger
    · exact hk rfl
    · exact (hhead c hc).2.2 heq

theorem Kind.endsBefore_of_touches {k k' : Kind} (h : k.touches k' = true) (rest : List Char) :
    k.EndsBefore (k'.spelling ++ rest) := by
  unfold Kind.touches at h
  split at h
  case h_1 => cases h
  case h_2 =>
    rintro c ⟨⟩
    decide
  case h_3 | h_4 => exact endsBefore_of_longer? rfl _
  case h_5 =>
    rintro c ⟨⟩
    decide
  case h_6 s t hcolon _ _ =>
    rcases Bool.or_eq_true_iff.1 h with h | h
    · exact endsBefore_of_longer? (Symbol.longer?_of_opens h) _
    · exact endsBefore_closes h (by simpa using hcolon) rest
  case h_7 => exact endsBefore_of_longer? (Symbol.longer?_of_opens h) _
  case h_8 => exact endsBefore_closes h (by simp_all) rest
  case h_9 => cases h

theorem layout_cons (k : Kind) (ks : List Kind) :
    ∃ rest, layout (k :: ks) = k.spelling ++ rest := by
  cases ks with
  | nil => exact ⟨[], (List.append_nil _).symm⟩
  | cons k' ks => exact ⟨_, rfl⟩

/-- **A laid out text is cut into its tokens.** -/
theorem Lexes.layout {ks : List Kind} (h : Spellable ks) : Lexes (layout ks) ks := by
  induction ks using layout.induct with
  | case1 => exact nil
  | case2 k =>
    have hk := (Spellable.cons_iff.1 h).1
    have hlexes := token hk k.endsBefore_nil nil
    rwa [List.append_nil] at hlexes
  | case3 k k' ks ih =>
    obtain ⟨hk, hks⟩ := Spellable.cons_iff.1 h
    rw [AccessPolicy.layout]
    by_cases htouch : k.touches k' = true
    · rw [if_pos htouch]
      obtain ⟨rest, hrest⟩ := layout_cons k' ks
      exact token hk (hrest ▸ Kind.endsBefore_of_touches htouch rest) (ih hks)
    · rw [if_neg htouch]
      exact token hk (k.endsBefore_space _) (ih hks).space

end AccessPolicy

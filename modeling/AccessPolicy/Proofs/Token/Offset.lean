import AccessPolicy.Proofs.Token.Below
import Mathlib.Data.List.Induction

/-! # Where tokens start

The offset of a place counts the characters before it. A place tells its offset: the line is one
more than the line breaks before the offset, and the column one more than the characters since the
last of them. Tokens stand where lexemes start: behind the leading trivia, or behind another token
and the trivia that follows it. -/

namespace AccessPolicy

/-- The place of an offset of a text. -/
structure Position.IsAt (p : Position) (cs : List Char) (k : Nat) : Prop where
  le : k ≤ cs.length
  line : p.line = 1 + (cs.take k).count '\n'
  column : p.column = 1 + ((cs.take k).reverse.takeWhile (· ≠ '\n')).length

namespace Position

/-- A line break starts with the first column, and every other character takes one. -/
theorem column_afterAll (cs : List Char) :
    (start.afterAll cs).column = 1 + (cs.reverse.takeWhile (· ≠ '\n')).length := by
  induction cs using List.reverseRecOn with
  | nil => rfl
  | append_singleton cs c ih =>
    rw [afterAll_append, List.reverse_append]
    change ((start.afterAll cs).after c).column = _
    by_cases hc : c = '\n'
    · rw [after, if_pos hc, hc]
      rfl
    · rw [after, if_neg hc, List.reverse_singleton, List.singleton_append,
        List.takeWhile_cons_of_pos (by simpa using hc), List.length_cons, ih]
      rfl

theorem isAt_afterAll {cs : List Char} {k : Nat} (h : k ≤ cs.length) :
    (start.afterAll (cs.take k)).IsAt cs k := ⟨h, line_afterAll start _, column_afterAll _⟩

end Position

namespace Lexer

/-- A lexeme starts at an offset of a text, and is a token of a kind or rejected. -/
inductive StartsAt : List Char → Nat → Except ParseFault Kind → Prop where
  | first {cs c rest} (hdrop : cs.drop (triviaLength false cs) = c :: rest) :
      StartsAt cs (triviaLength false cs) ((lexeme c rest).map Prod.fst)
  | next {cs c rest kind m k r} (hdrop : cs.drop (triviaLength false cs) = c :: rest)
      (hlexeme : lexeme c rest = .ok (kind, m)) (h : StartsAt (rest.drop m) k r) :
      StartsAt cs (triviaLength false cs + (m + 1 + k)) r

variable {p : Position} {cs : List Char}

theorem length_of_drop {n : Nat} {c : Char} {rest : List Char} (h : cs.drop n = c :: rest) :
    cs.length = n + (rest.length + 1) := by
  have hlen := congrArg List.length h
  simp only [List.length_drop, List.length_cons] at hlen
  omega

theorem StartsAt.lt {k : Nat} {r : Except ParseFault Kind} (h : StartsAt cs k r) :
    k < cs.length := by
  induction h with
  | first hdrop => rw [length_of_drop hdrop]; omega
  | next hdrop hlexeme h ih =>
    rw [List.length_drop] at ih
    rw [length_of_drop hdrop]
    omega

/-- The characters in front of an offset behind the first token. -/
theorem take_next {n m k : Nat} {c : Char} {rest : List Char}
    (hdrop : cs.drop n = c :: rest) :
    cs.take (n + (m + 1 + k)) = cs.take n ++ (c :: rest.take m) ++ (rest.drop m).take k := by
  have hrest : (c :: rest).take (m + 1 + k) = c :: rest.take m ++ (rest.drop m).take k := by
    rw [Nat.add_right_comm, List.take_succ_cons, List.take_add, List.cons_append]
  rw [List.take_add, hdrop, hrest, List.append_assoc]

/-- Behind the first token, an offset is at the place that counts from that token on. -/
theorem afterAll_next {n m k : Nat} {c : Char} {rest : List Char}
    (hdrop : cs.drop n = c :: rest) :
    ((p.afterAll (cs.take n)).afterAll (c :: rest.take m)).afterAll ((rest.drop m).take k) =
      p.afterAll (cs.take (n + (m + 1 + k))) := by
  rw [take_next hdrop, Position.afterAll_append, Position.afterAll_append]

/-- What is refused stands where a lexeme starts. -/
theorem tokensAt_error_startsAt {e : ParseError} (h : tokensAt p cs = .error e) :
    ∃ k, StartsAt cs k (.error e.fault) ∧ e.position = p.afterAll (cs.take k) := by
  induction hlen : cs.length using Nat.strongRecOn generalizing p cs with
  | ind len ih =>
    subst hlen
    cases hdrop : cs.drop (triviaLength false cs) with
    | nil =>
      rw [tokensAt_finish hdrop] at h
      cases h
    | cons c rest =>
      cases hlexeme : lexeme c rest with
      | error fault =>
        rw [tokensAt_error hdrop hlexeme] at h
        cases h
        have hfirst := StartsAt.first hdrop
        rw [hlexeme] at hfirst
        exact ⟨_, hfirst, rfl⟩
      | ok r =>
        obtain ⟨kind, m⟩ := r
        rw [tokensAt_token hdrop hlexeme] at h
        have hrest := Parse.map_eq_error_iff.1 h
        obtain ⟨k, hk, hposition⟩ := ih _ (length_lt_of_drop hdrop) hrest rfl
        exact ⟨_, .next hdrop hlexeme hk, hposition.trans (afterAll_next hdrop)⟩

/-- Tokens stand where lexemes start, and the tokens end with the text. -/
theorem tokensAt_ok_startsAt {ts : Tokens} (h : tokensAt p cs = .ok ts) :
    (∀ t ∈ ts.list, ∃ k, StartsAt cs k (.ok t.kind) ∧ t.position = p.afterAll (cs.take k)) ∧
      ts.finish = p.afterAll cs := by
  induction hlen : cs.length using Nat.strongRecOn generalizing p cs ts with
  | ind len ih =>
    subst hlen
    cases hdrop : cs.drop (triviaLength false cs) with
    | nil =>
      rw [tokensAt_finish hdrop] at h
      cases h
      refine ⟨nofun, ?_⟩
      rw [solidStart, List.take_of_length_le (List.drop_eq_nil_iff.1 hdrop)]
    | cons c rest =>
      cases hlexeme : lexeme c rest with
      | error fault =>
        rw [tokensAt_error hdrop hlexeme] at h
        cases h
      | ok r =>
        obtain ⟨kind, m⟩ := r
        rw [tokensAt_token hdrop hlexeme] at h
        obtain ⟨us, hus, rfl⟩ := Parse.map_eq_ok_iff.1 h
        obtain ⟨htokens, hfinish⟩ := ih _ (length_lt_of_drop hdrop) hus rfl
        refine ⟨List.forall_mem_cons.2 ⟨?_, fun t ht => ?_⟩, ?_⟩
        · have hfirst := StartsAt.first hdrop
          rw [hlexeme] at hfirst
          exact ⟨_, hfirst, rfl⟩
        · obtain ⟨k, hk, hposition⟩ := htokens t ht
          exact ⟨_, .next hdrop hlexeme hk, hposition.trans (afterAll_next hdrop)⟩
        · rw [hfinish, solidStart, ← Position.afterAll_append, ← Position.afterAll_append,
            List.cons_append, List.take_append_drop, ← hdrop, List.take_append_drop]

end Lexer

namespace Tokens

/-- The place of the first of the last tokens, or of the end behind them. -/
theorem positionAt_of_suffix {ts : Tokens} {us : List Kind} (h : us <:+ ts.kinds) :
    us.head? = none ∧ ts.positionAt us.length = ts.finish ∨
      ∃ t ∈ ts.list, us.head? = some t.kind ∧ ts.positionAt us.length = t.position := by
  obtain ⟨vs, hvs⟩ := h
  obtain ⟨front, back, hlist, -, rfl⟩ := List.map_eq_append_iff.1 hvs.symm
  have hback : ts.list.drop (ts.list.length - back.length) = back := by
    rw [hlist, List.length_append, Nat.add_sub_cancel, List.drop_left]
  rw [List.length_map, positionAt, hback]
  cases back with
  | nil => exact .inl ⟨rfl, rfl⟩
  | cons t back =>
    have ht : t ∈ ts.list := by simp [hlist]
    exact .inr ⟨t, ht, rfl, rfl⟩

end Tokens

end AccessPolicy

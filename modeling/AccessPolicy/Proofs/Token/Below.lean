import AccessPolicy.Proofs.Token.Lexes

/-! # Texts below each other

A line break ends every lexeme and every comment, so a text that stands below another one is cut
into the tokens that it has alone. They only stand farther down: positions are shifted by whole
lines (`Lexer.tokensAt_down`), and the tokens of the upper text come first
(`Lexer.tokensAt_below`). -/

namespace AccessPolicy

/-! ## Positions farther down -/

/-- The place some lines farther down. -/
def Position.down (n : Nat) (p : Position) : Position := ⟨p.line + n, p.column⟩

def Token.down (n : Nat) (t : Token) : Token := ⟨t.kind, t.position.down n⟩

def Tokens.down (n : Nat) (ts : Tokens) : Tokens := ⟨ts.list.map (Token.down n), ts.finish.down n⟩

def ParseError.down (n : Nat) (e : ParseError) : ParseError := ⟨e.position.down n, e.fault⟩

namespace Position

theorem after_down (n : Nat) (p : Position) (c : Char) :
    (p.down n).after c = (p.after c).down n := by
  unfold after down
  split
  · rw [Nat.add_right_comm]
  · rfl

theorem afterAll_down (n : Nat) (p : Position) (cs : List Char) :
    (p.down n).afterAll cs = (p.afterAll cs).down n := by
  induction cs generalizing p with
  | nil => rfl
  | cons c cs ih =>
    change ((p.down n).after c).afterAll cs = _
    rw [after_down, ih]
    rfl

/-- Every line break of a text starts one line more. -/
theorem line_afterAll (p : Position) (cs : List Char) :
    (p.afterAll cs).line = p.line + cs.count '\n' := by
  induction cs generalizing p with
  | nil => rfl
  | cons c cs ih =>
    change ((p.after c).afterAll cs).line = _
    rw [ih, after, List.count_cons]
    split
    · rename_i hc
      simp only [hc, beq_self_eq_true, if_true]
      omega
    · rename_i hc
      simp [hc]

theorem after_break (cs : List Char) :
    (start.afterAll cs).after '\n' = start.down (cs.count '\n' + 1) := by
  have hline : (start.afterAll cs).line = 1 + cs.count '\n' := line_afterAll start cs
  rw [after, if_pos rfl, hline, Nat.add_assoc]
  rfl

end Position

namespace Lexer

/-! ## One token at a time -/

section

variable {p : Position} {c : Char} {cs rest : List Char}

/-- The place behind the leading trivia. -/
def solidStart (p : Position) (cs : List Char) : Position :=
  p.afterAll (cs.take (triviaLength false cs))

theorem tokensAt_finish (h : cs.drop (triviaLength false cs) = []) :
    tokensAt p cs = .ok ⟨[], solidStart p cs⟩ := by
  rw [tokensAt]
  split
  · rfl
  · rename_i heq
    rw [h] at heq
    cases heq

theorem tokensAt_error {fault : ParseFault} (h : cs.drop (triviaLength false cs) = c :: rest)
    (hl : lexeme c rest = .error fault) : tokensAt p cs = .error ⟨solidStart p cs, fault⟩ := by
  rw [tokensAt]
  split
  · rename_i heq
    rw [h] at heq
    cases heq
  · rename_i heq
    rw [h] at heq
    cases heq
    rw [hl]
    rfl

theorem tokensAt_token {k : Kind} {m : Nat} (h : cs.drop (triviaLength false cs) = c :: rest)
    (hl : lexeme c rest = .ok (k, m)) :
    tokensAt p cs =
      (tokensAt ((solidStart p cs).afterAll (c :: rest.take m)) (rest.drop m)).map fun ts =>
        ⟨⟨k, solidStart p cs⟩ :: ts.list, ts.finish⟩ := by
  rw [tokensAt]
  split
  · rename_i heq
    rw [h] at heq
    cases heq
  · rename_i heq
    rw [h] at heq
    cases heq
    rw [hl]
    rfl

theorem length_lt_of_drop {m n : Nat} (h : cs.drop n = c :: rest) :
    (rest.drop m).length < cs.length := by
  have hlen := congrArg List.length h
  simp only [List.length_drop, List.length_cons] at hlen ⊢
  omega

end

/-! ## The same text farther down -/

theorem solidStart_down (n : Nat) (p : Position) (cs : List Char) :
    solidStart (p.down n) cs = (solidStart p cs).down n := Position.afterAll_down n p _

/-- **A text that stands some lines farther down has the same tokens or the same fault there.** -/
theorem tokensAt_down (n : Nat) (p : Position) (cs : List Char) :
    tokensAt (p.down n) cs =
      ((tokensAt p cs).map (Tokens.down n)).mapError (ParseError.down n) := by
  induction hlen : cs.length using Nat.strongRecOn generalizing p cs with
  | ind len ih =>
    subst hlen
    cases hdrop : cs.drop (triviaLength false cs) with
    | nil =>
      rw [tokensAt_finish hdrop, tokensAt_finish hdrop, solidStart_down]
      rfl
    | cons c rest =>
      cases hl : lexeme c rest with
      | error fault =>
        rw [tokensAt_error hdrop hl, tokensAt_error hdrop hl, solidStart_down]
        rfl
      | ok r =>
        obtain ⟨k, m⟩ := r
        rw [tokensAt_token hdrop hl, tokensAt_token hdrop hl, solidStart_down,
          Position.afterAll_down, ih _ (length_lt_of_drop hdrop) _ _ rfl]
        cases tokensAt ((solidStart p cs).afterAll (c :: rest.take m)) (rest.drop m) <;> rfl

/-! ## Behind a line break -/

theorem triviaLength_le (inComment : Bool) (cs : List Char) :
    triviaLength inComment cs ≤ cs.length := by
  fun_induction triviaLength inComment cs with
  | case1 => exact Nat.zero_le _
  | case2 c cs ih => exact Nat.succ_le_succ ih
  | case3 cs ih => exact Nat.succ_le_succ (Nat.succ_le_succ ih)
  | case4 c cs _ _ ih => exact Nat.succ_le_succ ih
  | case5 => exact Nat.zero_le _

theorem no_comment_break {c : Char} {cs ds : List Char}
    (h : ∀ us, c = '/' → cs = '/' :: us → False) :
    ∀ us, c = '/' → cs ++ '\n' :: ds = '/' :: us → False := by
  intro us hc hcs
  cases cs with
  | nil => cases hcs
  | cons d cs =>
    cases hcs
    exact h cs hc rfl

theorem triviaLength_break (inComment : Bool) (cs ds : List Char) :
    triviaLength inComment (cs ++ '\n' :: ds) =
      if triviaLength inComment cs = cs.length then cs.length + 1 + triviaLength false ds
      else triviaLength inComment cs := by
  induction inComment, cs using triviaLength.induct with
  | case1 b =>
    cases b with
    | true => simp [triviaLength, Nat.add_comm]
    | false => simp [triviaLength, Nat.add_comm, show Text.isBlank '\n' = true by decide]
  | case2 c cs ih =>
    simp only [List.cons_append, triviaLength, ih, List.length_cons, Nat.add_right_cancel_iff]
    split <;> omega
  | case3 cs ih =>
    simp only [List.cons_append, triviaLength, ih, List.length_cons, Nat.add_right_cancel_iff]
    split <;> omega
  | case4 c cs hslash hblank ih =>
    have hslash' : ∀ us, c = '/' → cs ++ '\n' :: ds = '/' :: us → False := no_comment_break hslash
    rw [List.cons_append, triviaLength, triviaLength, if_pos hblank, if_pos hblank, ih,
      List.length_cons]
    · split <;> split <;> omega
    · exact hslash
    · exact hslash'
  | case5 c cs hslash hblank =>
    rw [List.cons_append, triviaLength, triviaLength, if_neg hblank, if_neg hblank,
      if_neg (by simp)]
    · exact hslash
    · exact no_comment_break hslash

theorem symbol?_break (c : Char) (cs ds : List Char) :
    symbol? c (cs ++ '\n' :: ds) = symbol? c cs := by
  cases cs with
  | nil =>
    have hdouble : double? c '\n' = none := by
      unfold double?
      split <;> first | rfl | contradiction
    simp [symbol?, hdouble]
  | cons d cs => rfl

theorem takeWhile_break {p : Char → Bool} (h : p '\n' = false) (cs ds : List Char) :
    (cs ++ '\n' :: ds).takeWhile p = cs.takeWhile p := by
  induction cs with
  | nil => simp [h]
  | cons c cs ih => simp [List.takeWhile_cons, ih]

theorem symbol?_length {c : Char} {cs : List Char} {s : Symbol} {n : Nat}
    (h : symbol? c cs = some (s, n)) : n ≤ cs.length := by
  cases cs with
  | nil =>
    obtain ⟨_, -, hn⟩ := Option.map_eq_some_iff.1 h
    cases hn
    exact Nat.le_refl 0
  | cons d cs =>
    unfold symbol? at h
    split at h
    · cases h
      simp
    · obtain ⟨_, -, hn⟩ := Option.map_eq_some_iff.1 h
      cases hn
      exact Nat.zero_le _

theorem rawLength_lt {cs : List Char} {n : Nat} (h : rawLength cs = some n) : n < cs.length := by
  fun_induction rawLength cs generalizing n with
  | case1 => cases h
  | case2 cs =>
    cases h
    exact Nat.zero_lt_succ _
  | case3 => cases h
  | case4 c cs ih =>
    obtain ⟨m, hm, rfl⟩ := Option.map_eq_some_iff.1 h
    have hlt := ih hm
    simp only [List.length_cons]
    omega
  | case5 c cs _ _ _ ih =>
    obtain ⟨m, hm, rfl⟩ := Option.map_eq_some_iff.1 h
    have hlt := ih hm
    simp only [List.length_cons]
    omega

/-- A lexeme takes no more characters than there are. -/
theorem lexeme_length {c : Char} {cs : List Char} {k : Kind} {m : Nat}
    (h : lexeme c cs = .ok (k, m)) : m ≤ cs.length := by
  unfold lexeme at h
  split at h
  · rename_i s n hs
    cases h
    exact symbol?_length hs
  · split at h
    · split at h
      · rename_i n hn
        cases h
        exact rawLength_lt hn
      · cases h
    · split at h
      · dsimp only at h
        split at h
        · cases h
          exact (List.takeWhile_sublist _).length_le
        · cases h
      · split at h
        · cases h
          exact (List.takeWhile_sublist _).length_le
        · split at h <;> cases h

/-- A lexeme ends before a line break. -/
theorem lexeme_break {c : Char} {cs : List Char} {k : Kind} {m : Nat}
    (h : lexeme c cs = .ok (k, m)) (ds : List Char) :
    lexeme c (cs ++ '\n' :: ds) = .ok (k, m) := by
  have hdigit := takeWhile_break (p := Char.isDigit) (by decide) cs ds
  have hident := takeWhile_break (p := isIdentChar) (by decide) cs ds
  unfold lexeme at h ⊢
  simp only [symbol?_break, hdigit, hident]
  split at h
  · exact h
  · split at h
    · rename_i hq
      rw [if_pos hq]
      split at h
      · rename_i n hn
        cases h
        have hlen : n ≤ cs.length := Nat.le_of_lt (rawLength_lt hn)
        simp only [rawLength_append hn, List.take_append_of_le_length hlen]
      · cases h
    · rename_i hq
      rw [if_neg hq]
      exact h

/-- Trivia in front of a text only moves its tokens. -/
theorem tokensAt_behind_trivia {front ds : List Char}
    (h : triviaLength false (front ++ ds) = front.length + triviaLength false ds) (p : Position) :
    tokensAt p (front ++ ds) = tokensAt (p.afterAll front) ds := by
  have hstart : solidStart p (front ++ ds) = solidStart (p.afterAll front) ds := by
    rw [solidStart, solidStart, h, List.take_length_add_append, Position.afterAll_append]
  have hdrop : (front ++ ds).drop (triviaLength false (front ++ ds)) =
      ds.drop (triviaLength false ds) := by rw [h, List.drop_length_add_append]
  cases hds : ds.drop (triviaLength false ds) with
  | nil => rw [tokensAt_finish (hdrop.trans hds), tokensAt_finish hds, hstart]
  | cons c rest =>
    cases hl : lexeme c rest with
    | error fault => rw [tokensAt_error (hdrop.trans hds) hl, tokensAt_error hds hl, hstart]
    | ok r => rw [tokensAt_token (hdrop.trans hds) hl, tokensAt_token hds hl, hstart]

/-- **Behind the tokens of a text come those of the text below it**, each in its place. -/
theorem tokensAt_below {p : Position} {cs : List Char} {ts : Tokens} (h : tokensAt p cs = .ok ts)
    (ds : List Char) :
    tokensAt p (cs ++ '\n' :: ds) =
      (tokensAt ((p.afterAll cs).after '\n') ds).map fun us => ⟨ts.list ++ us.list, us.finish⟩ := by
  induction hlen : cs.length using Nat.strongRecOn generalizing p cs ts with
  | ind len ih =>
    subst hlen
    have htrivia := triviaLength_break false cs ds
    cases hdrop : cs.drop (triviaLength false cs) with
    | nil =>
      -- All of the text is trivia, so the trivia in front of the text below only grows.
      rw [tokensAt_finish hdrop] at h
      cases h
      have hall : triviaLength false cs = cs.length :=
        Nat.le_antisymm (triviaLength_le false cs) (List.drop_eq_nil_iff.1 hdrop)
      have hfront : cs ++ '\n' :: ds = (cs ++ ['\n']) ++ ds := by simp
      rw [if_pos hall, hfront] at htrivia
      rw [hfront, tokensAt_behind_trivia (by simpa using htrivia), Position.afterAll_append]
      change tokensAt ((p.afterAll cs).after '\n') ds = _
      cases tokensAt ((p.afterAll cs).after '\n') ds <;> rfl
    | cons c rest =>
      have hlt : triviaLength false cs < cs.length := by
        have hlen := congrArg List.length hdrop
        simp only [List.length_drop, List.length_cons] at hlen
        omega
      rw [if_neg (Nat.ne_of_lt hlt)] at htrivia
      have hdrop' : (cs ++ '\n' :: ds).drop (triviaLength false (cs ++ '\n' :: ds)) =
          c :: (rest ++ '\n' :: ds) := by
        rw [htrivia, List.drop_append_of_le_length (Nat.le_of_lt hlt), hdrop]
        rfl
      have hstart : solidStart p (cs ++ '\n' :: ds) = solidStart p cs := by
        rw [solidStart, htrivia, List.take_append_of_le_length (Nat.le_of_lt hlt)]
        rfl
      cases hl : lexeme c rest with
      | error fault =>
        rw [tokensAt_error hdrop hl] at h
        cases h
      | ok r =>
        obtain ⟨k, m⟩ := r
        have hm := lexeme_length hl
        rw [tokensAt_token hdrop hl] at h
        obtain ⟨us, hus, rfl⟩ := Parse.map_eq_ok_iff.1 h
        have hend : ((solidStart p cs).afterAll (c :: rest.take m)).afterAll (rest.drop m) =
            p.afterAll cs := by
          rw [solidStart, ← Position.afterAll_append, ← Position.afterAll_append, List.cons_append,
            List.take_append_drop, ← hdrop, List.take_append_drop]
        rw [tokensAt_token hdrop' (lexeme_break hl ds), hstart,
          List.take_append_of_le_length hm, List.drop_append_of_le_length hm,
          ih _ (length_lt_of_drop hdrop) hus rfl, hend]
        cases tokensAt ((p.afterAll cs).after '\n') ds <;> rfl

end Lexer

namespace Tokens

theorem ofText_below {a : String} {ts : Tokens} (h : ofText a = .ok ts) (b : String) :
    ofText (a ++ "\n" ++ b) =
      ((ofText b).map fun us =>
          let us := us.down (a.toList.count '\n' + 1)
          ⟨ts.list ++ us.list, us.finish⟩).mapError
        (ParseError.down (a.toList.count '\n' + 1)) := by
  have htext : (a ++ "\n" ++ b).toList = a.toList ++ '\n' :: b.toList := by simp
  rw [ofText, ofText, htext, Lexer.tokensAt_below h, Position.after_break, Lexer.tokensAt_down]
  cases Lexer.tokensAt Position.start b.toList <;> rfl

/-- The place of one of the last tokens does not depend on those before them. -/
theorem positionAt_below (ts : List Token) (us : Tokens) {n remaining : Nat}
    (h : remaining ≤ us.list.length) :
    positionAt ⟨ts ++ (us.down n).list, (us.down n).finish⟩ remaining =
      (us.positionAt remaining).down n := by
  have hdrop : (ts ++ us.list.map (Token.down n)).drop
      ((ts ++ us.list.map (Token.down n)).length - remaining) =
        (us.list.drop (us.list.length - remaining)).map (Token.down n) := by
    have hlen : (ts ++ us.list.map (Token.down n)).length - remaining =
        ts.length + (us.list.length - remaining) := by
      simp only [List.length_append, List.length_map]
      omega
    rw [hlen, List.drop_length_add_append, List.map_drop]
  unfold positionAt
  simp only [down, hdrop]
  cases us.list.drop (us.list.length - remaining) <;> rfl

end Tokens

end AccessPolicy

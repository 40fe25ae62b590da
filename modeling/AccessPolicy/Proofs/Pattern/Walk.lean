import AccessPolicy.Proofs.Pattern.Matches

/-! # Matching with two cursors

The matcher as a walk by positions in the pattern and in the text, with one place to resume at after
a mismatch: behind the last wildcard, with one character more in its run. A position that is not
there stops the walk for good. Every walk ends, within one step for each pair of a position in the
pattern and one in the text, stays in range, and finds what the matcher finds (`accepts_glob`).

Runs of earlier wildcards are given up when a later wildcard is reached: what they could still take,
the later one can take in their place (`matches_wildcard_literal_iff`). -/

namespace AccessPolicy.Pattern

/-- The positions in the pattern and in the text, and those to resume at. -/
structure Walk where
  elem : Nat := 0
  char : Nat := 0
  resume : Option (Nat × Nat) := none

/-- What a step, or a number of steps, comes to. -/
inductive Progress where
  | goOn (w : Walk)
  | answer (b : Bool)
  | outOfRange

namespace Walk

/-- The last wildcard takes one character more; without one there is no match. -/
def lengthen (w : Walk) : Progress :=
  match w.resume with
  | some (e, c) => .goOn ⟨e, c + 1, some (e, c + 1)⟩
  | none => .answer false

def step (p : Pattern) (s : List Char) (w : Walk) : Progress :=
  if w.char < s.length then
    match p[w.elem]? with
    | some .wildcard => .goOn ⟨w.elem + 1, w.char, some (w.elem + 1, w.char)⟩
    | some (.char c) =>
      match s[w.char]? with
      | none => .outOfRange
      | some d => if c = d then .goOn ⟨w.elem + 1, w.char + 1, w.resume⟩ else w.lengthen
    | none => w.lengthen
  else if w.elem ≤ p.length then .answer ((p.drop w.elem).all fun e => decide (e = .wildcard))
  else .outOfRange

/-- At most the given number of steps. -/
def run (p : Pattern) (s : List Char) (w : Walk) : Nat → Progress
  | 0 => .goOn w
  | n + 1 =>
    match w.step p s with
    | .goOn w' => w'.run p s n
    | ended => ended

end Walk

variable {p q : Pattern} {s t cs : List Char}

/-! ## A wildcard in front of literal text -/

/-- Behind the literal text the rest of the pattern matches at the same place or later. -/
theorem Matches.behind_wildcard_literal (h : Matches (.wildcard :: (literal cs ++ p)) (cs ++ s)) :
    ∃ t, t <:+ s ∧ Matches p t := by
  obtain ⟨u, hu, hp⟩ := matches_wildcard_iff.mp h
  obtain ⟨t, rfl, ht⟩ := hp.behind_literal
  have hlen : t.length ≤ s.length := by
    have := hu.length_le
    simp only [List.length_append] at this
    omega
  have hsuffix : t <:+ cs ++ s := (List.suffix_append cs t).trans hu
  exact ⟨t, List.suffix_of_suffix_length_le hsuffix (List.suffix_append cs s) hlen, ht⟩

theorem Matches.wildcard_literal (h : Matches p s) :
    Matches (.wildcard :: (literal cs ++ p)) (cs ++ s) :=
  matches_wildcard_iff.mpr ⟨cs ++ s, List.suffix_refl _, matches_literal_append_iff.mpr h⟩

/-- **The exchange**: behind literal text that is there, a wildcard takes what the one in front of
the text could take. -/
theorem matches_wildcard_literal_iff :
    Matches (.wildcard :: (literal cs ++ .wildcard :: p)) (cs ++ s) ↔
      Matches (.wildcard :: p) s := by
  refine ⟨fun h => ?_, Matches.wildcard_literal⟩
  obtain ⟨t, ht, hp⟩ := h.behind_wildcard_literal
  exact hp.wildcard_of_suffix ht

theorem matches_nil_text_iff : Matches p [] ↔ ∀ e ∈ p, e = .wildcard := by
  induction p with
  | nil => simp [matches_nil_iff]
  | cons e p ih =>
    rw [List.forall_mem_cons, ← ih]
    cases e with
    | char c => exact iff_of_false not_matches_char_nil nofun
    | wildcard =>
      rw [matches_wildcard_iff]
      constructor
      · rintro ⟨t, ht, hp⟩
        obtain rfl := List.suffix_nil.mp ht
        exact ⟨rfl, hp⟩
      · exact fun h => ⟨[], List.suffix_refl [], h.2⟩

theorem matches_wildcard_literal_end_iff :
    Matches (.wildcard :: (literal cs ++ p)) (cs ++ []) ↔ Matches p [] := by
  refine ⟨fun h => ?_, Matches.wildcard_literal⟩
  obtain ⟨t, ht, hp⟩ := h.behind_wildcard_literal
  obtain rfl := List.suffix_nil.mp ht
  exact hp

/-! ## The invariant of a walk -/

/-- The walk stands behind literal text `cs`, in front of `rest` and `tail`. With a place to resume
at, the literal text starts there, and the whole text matches exactly if its part from there on can
be matched from the last wildcard on. -/
structure Walk.Stands (p : Pattern) (s : List Char) (front : Pattern) (skipped cs : List Char)
    (rest : Pattern) (tail : List Char) (w : Walk) : Prop where
  pattern_eq : p = front ++ (literal cs ++ rest)
  text_eq : s = skipped ++ (cs ++ tail)
  elem_eq : w.elem = front.length + cs.length
  char_eq : w.char = skipped.length + cs.length
  resume_eq : w.resume = none ∧ front = [] ∧ skipped = [] ∨
    w.resume = some (front.length, skipped.length) ∧
      (Matches p s ↔ Matches (.wildcard :: (literal cs ++ rest)) (cs ++ tail))

namespace Walk.Stands

variable {front rest : Pattern} {skipped tail : List Char} {w : Walk}

theorem elem_eq_length (h : w.Stands p s front skipped cs rest tail) :
    w.elem = (front ++ literal cs).length := by
  rw [h.elem_eq, List.length_append, length_literal]

theorem char_eq_length (h : w.Stands p s front skipped cs rest tail) :
    w.char = (skipped ++ cs).length := by
  rw [h.char_eq, List.length_append]

theorem drop_pattern (h : w.Stands p s front skipped cs rest tail) : p.drop w.elem = rest := by
  rw [h.elem_eq_length, h.pattern_eq, ← List.append_assoc, List.drop_left]

theorem drop_text (h : w.Stands p s front skipped cs rest tail) : s.drop w.char = tail := by
  rw [h.char_eq_length, h.text_eq, ← List.append_assoc, List.drop_left]

theorem getElem?_pattern (h : w.Stands p s front skipped cs rest tail) :
    p[w.elem]? = rest.head? := by
  rw [← h.drop_pattern, List.head?_drop]

theorem getElem?_text (h : w.Stands p s front skipped cs rest tail) :
    s[w.char]? = tail.head? := by
  rw [← h.drop_text, List.head?_drop]

theorem length_pattern (h : w.Stands p s front skipped cs rest tail) :
    p.length = w.elem + rest.length := by
  rw [h.pattern_eq, h.elem_eq]
  simp only [List.length_append, length_literal]
  omega

theorem length_text (h : w.Stands p s front skipped cs rest tail) :
    s.length = w.char + tail.length := by
  rw [h.text_eq, h.char_eq]
  simp only [List.length_append]
  omega

/-- At a wildcard the literal text can be forgotten. -/
theorem matches_wildcard_iff (h : w.Stands p s front skipped cs (.wildcard :: q) tail) :
    Matches p s ↔ Matches (.wildcard :: q) tail := by
  rcases h.resume_eq with ⟨-, rfl, rfl⟩ | ⟨-, hm⟩
  · rw [h.pattern_eq, h.text_eq]
    exact matches_literal_append_iff
  · exact hm.trans matches_wildcard_literal_iff

/-- At the end of the text, the rest of the pattern decides. -/
theorem matches_end_iff (h : w.Stands p s front skipped cs rest []) :
    Matches p s ↔ Matches rest [] := by
  rcases h.resume_eq with ⟨-, rfl, rfl⟩ | ⟨-, hm⟩
  · rw [h.pattern_eq, h.text_eq]
    exact matches_literal_append_iff
  · exact hm.trans matches_wildcard_literal_end_iff

/-- In front of a character that starts no match, the literal text is given up. -/
theorem not_matches_whole (h : w.Stands p s front skipped cs rest tail)
    (hm : ¬ Matches rest tail) (hr : w.resume = none) : ¬ Matches p s := by
  rcases h.resume_eq with ⟨-, rfl, rfl⟩ | ⟨hsome, -⟩
  · rw [h.pattern_eq, h.text_eq]
    exact fun hp => hm (matches_literal_append_iff.mp hp)
  · cases hr.symm.trans hsome

end Walk.Stands

/-! ## Steps -/

namespace Walk

/-- Walks that stand somewhere in pattern and text. -/
def Sound (p : Pattern) (s : List Char) (w : Walk) : Prop :=
  ∃ front skipped cs rest tail, w.Stands p s front skipped cs rest tail

/-- A bound on the steps that are left: behind every place to resume at, the pattern can be gone
through once. -/
def left (p : Pattern) (s : List Char) (w : Walk) : Nat :=
  (s.length - w.resume.elim 0 Prod.snd) * (p.length + 1) + (p.length - w.elem)

end Walk

/-- What may come of a walk with `n` steps left. -/
def Progress.Follows (p : Pattern) (s : List Char) (n : Nat) : Progress → Prop
  | .goOn w => w.Sound p s ∧ w.left p s < n
  | .answer b => b = true ↔ Matches p s
  | .outOfRange => False

namespace Walk.Stands

variable {front rest : Pattern} {skipped tail : List Char} {w : Walk}

theorem left_eq (h : w.Stands p s front skipped cs rest tail) :
    w.left p s = (cs.length + tail.length) * (p.length + 1) + rest.length := by
  have hplace : w.resume.elim 0 Prod.snd = skipped.length := by
    rcases h.resume_eq with ⟨hr, -, rfl⟩ | ⟨hr, -⟩
    · rw [hr]
      rfl
    · rw [hr]
      rfl
  have hrest : p.length - w.elem = rest.length := by
    rw [h.length_pattern, Nat.add_sub_cancel_left]
  have htext : s.length - skipped.length = cs.length + tail.length := by
    rw [h.text_eq, List.length_append, Nat.add_sub_cancel_left, List.length_append]
  rw [left, hplace, hrest, htext]

theorem lengthen_follows {d : Char} (h : w.Stands p s front skipped cs rest (d :: tail))
    (hm : ¬ Matches rest (d :: tail)) : w.lengthen.Follows p s (w.left p s) := by
  unfold lengthen
  rcases h.resume_eq with ⟨hr, -⟩ | ⟨hr, hwhole⟩
  · rw [hr]
    exact iff_of_false nofun (h.not_matches_whole hm hr)
  · rw [hr]
    -- The first character behind the place to resume at goes into the run.
    obtain ⟨c, t, hct⟩ : ∃ c t, cs ++ d :: tail = c :: t := by
      cases cs with
      | nil => exact ⟨d, tail, rfl⟩
      | cons c cs => exact ⟨c, cs ++ d :: tail, rfl⟩
    have hbehind : Matches p s ↔ Matches (.wildcard :: (literal cs ++ rest)) t := by
      rw [hwhole, hct, matches_wildcard_cons_iff, ← hct, matches_literal_append_iff]
      exact or_iff_right hm
    have hstands : Stands p s front (skipped ++ [c]) [] (literal cs ++ rest) t
        ⟨front.length, skipped.length + 1, some (front.length, skipped.length + 1)⟩ := by
      refine ⟨h.pattern_eq, ?_, rfl, by simp, .inr ⟨by simp, hbehind⟩⟩
      rw [h.text_eq, hct, List.append_assoc]
      rfl
    have hlen : cs.length + (d :: tail).length = t.length + 1 := by
      rw [← List.length_append, hct, List.length_cons]
    have hle : cs.length + rest.length ≤ p.length := by
      rw [h.length_pattern, h.elem_eq]
      omega
    refine ⟨⟨_, _, _, _, _, hstands⟩, ?_⟩
    rw [hstands.left_eq, h.left_eq, hlen, List.length_append, length_literal, List.length_nil,
      Nat.zero_add, Nat.succ_mul]
    omega

theorem wildcard_follows (h : w.Stands p s front skipped cs (.wildcard :: q) tail) :
    (Progress.goOn ⟨w.elem + 1, w.char, some (w.elem + 1, w.char)⟩).Follows p s (w.left p s) := by
  have hstands : Stands p s (front ++ literal cs ++ [.wildcard]) (skipped ++ cs) [] q tail
      ⟨w.elem + 1, w.char, some (w.elem + 1, w.char)⟩ := by
    refine ⟨?_, ?_, ?_, ?_, .inr ⟨?_, h.matches_wildcard_iff⟩⟩
    · rw [h.pattern_eq]
      simp [literal]
    · rw [h.text_eq]
      simp
    · simp [h.elem_eq, Nat.add_assoc]
    · simp [h.char_eq]
    · simp [h.elem_eq, h.char_eq, Nat.add_assoc]
  have hmul : tail.length * (p.length + 1) ≤ (cs.length + tail.length) * (p.length + 1) :=
    Nat.mul_le_mul_right _ (Nat.le_add_left _ _)
  refine ⟨⟨_, _, _, _, _, hstands⟩, ?_⟩
  rw [hstands.left_eq, h.left_eq, List.length_nil, Nat.zero_add, List.length_cons]
  omega

theorem char_follows {c : Char} (h : w.Stands p s front skipped cs (.char c :: q) (c :: tail)) :
    (Progress.goOn ⟨w.elem + 1, w.char + 1, w.resume⟩).Follows p s (w.left p s) := by
  have hliteral : literal (cs ++ [c]) ++ q = literal cs ++ .char c :: q := by simp [literal]
  have htext : cs ++ [c] ++ tail = cs ++ c :: tail := by simp
  have hstands : Stands p s front skipped (cs ++ [c]) q tail
      ⟨w.elem + 1, w.char + 1, w.resume⟩ := by
    refine ⟨?_, ?_, ?_, ?_, ?_⟩
    · rw [hliteral, h.pattern_eq]
    · rw [htext, h.text_eq]
    · simp [h.elem_eq, Nat.add_assoc]
    · simp [h.char_eq, Nat.add_assoc]
    · rw [hliteral, htext]
      exact h.resume_eq
  have hlen : (cs ++ [c]).length + tail.length = cs.length + (c :: tail).length := by
    simp only [List.length_append, List.length_cons, List.length_nil]
    omega
  refine ⟨⟨_, _, _, _, _, hstands⟩, ?_⟩
  rw [hstands.left_eq, h.left_eq, hlen]
  exact Nat.add_lt_add_left (Nat.lt_succ_self q.length) _

theorem answer_follows (h : w.Stands p s front skipped cs rest []) :
    (Progress.answer (rest.all fun e => decide (e = .wildcard))).Follows p s (w.left p s) := by
  change _ = true ↔ _
  rw [h.matches_end_iff, matches_nil_text_iff, List.all_eq_true]
  simp only [decide_eq_true_eq]

end Walk.Stands

namespace Walk

variable {w : Walk} {n : Nat}

/-- **A step keeps to the range, keeps the invariant and leaves fewer steps.** -/
theorem step_follows (h : w.Sound p s) : (w.step p s).Follows p s (w.left p s) := by
  obtain ⟨front, skipped, cs, rest, tail, h⟩ := h
  unfold step
  cases tail with
  | nil =>
    have hend : ¬ w.char < s.length := by
      rw [h.length_text]
      exact Nat.lt_irrefl _
    have hle : w.elem ≤ p.length := by
      rw [h.length_pattern]
      exact Nat.le_add_right _ _
    rw [if_neg hend, if_pos hle, h.drop_pattern]
    exact h.answer_follows
  | cons d tail =>
    have hlt : w.char < s.length := by
      rw [h.length_text, List.length_cons]
      omega
    rw [if_pos hlt, h.getElem?_pattern, h.getElem?_text]
    cases rest with
    | nil => exact h.lengthen_follows fun hm => nomatch matches_nil_iff.mp hm
    | cons e q =>
      cases e with
      | wildcard => exact h.wildcard_follows
      | char c =>
        change Progress.Follows p s (w.left p s) (if c = d then _ else _)
        by_cases hcd : c = d
        · subst hcd
          rw [if_pos rfl]
          exact h.char_follows
        · rw [if_neg hcd]
          exact h.lengthen_follows fun hm => hcd (matches_char_cons_iff.mp hm).1

theorem run_eq_answer (h : w.Sound p s) (hn : w.left p s < n) :
    ∃ b, w.run p s n = .answer b ∧ (b = true ↔ Matches p s) := by
  induction n generalizing w with
  | zero => exact absurd hn (Nat.not_lt_zero _)
  | succ n ih =>
    have hstep := step_follows h
    rw [run]
    cases hw : w.step p s with
    | goOn w' =>
      rw [hw] at hstep
      exact ih hstep.1 (Nat.lt_of_lt_of_le hstep.2 (Nat.le_of_lt_succ hn))
    | answer b =>
      rw [hw] at hstep
      exact ⟨b, rfl, hstep⟩
    | outOfRange =>
      rw [hw] at hstep
      exact hstep.elim

theorem start_stands (p : Pattern) (s : List Char) : ({} : Walk).Stands p s [] [] [] p s :=
  ⟨rfl, rfl, rfl, rfl, .inl ⟨rfl, rfl, rfl⟩⟩

end Walk

/-- **Matching is glob matching.** The walk ends within a step for each pair of a position in the
pattern and one in the text, in range, with the answer of the matcher; the text is accepted exactly
if it can be cut into pieces, one for each element; and the source of a text with all that is
special escaped compiles to a pattern that accepts this text and no other. -/
theorem accepts_glob (p : Pattern) (s : String) :
    (∀ n, (s.length + 1) * (p.length + 1) ≤ n →
      ({} : Walk).run p s.toList n = .answer (p.accepts s)) ∧
      (p.accepts s = true ↔ Matches p s.toList) ∧
      ∀ t : String, ∃ q, compile (starsEscaped (Text.escape t.toList)) = .ok q ∧
        ∀ u, q.accepts u = true ↔ u = t := by
  refine ⟨fun n hn => ?_, accepts_iff_matches, fun t => ?_⟩
  · have hstands := Walk.start_stands p s.toList
    have hleft : ({} : Walk).left p s.toList < n := by
      rw [hstands.left_eq, List.length_nil, Nat.zero_add, String.length_toList]
      rw [Nat.succ_mul] at hn
      omega
    obtain ⟨b, hrun, hb⟩ := Walk.run_eq_answer ⟨_, _, _, _, _, hstands⟩ hleft
    have hanswer : b = p.accepts s := Bool.eq_iff_iff.mpr (hb.trans accepts_iff_matches.symm)
    rw [hrun, hanswer]
  · refine ⟨literal t.toList, ?_, fun u => accepts_literal_iff⟩
    rw [starsEscaped_escape, compile_raw]

/-- Two wildcards; the run of the second one grows past a first `c`. -/
theorem accepts_glob_two_wildcards :
    let p : Pattern := [.wildcard, .char 'b', .wildcard, .char 'c', .char '*']
    (13 + 1) * (p.length + 1) ≤ 84 ∧
      ({} : Walk).run p "aaba\nc-bbc-c*".toList 84 = .answer true ∧
      Matches p "aaba\nc-bbc-c*".toList := by
  intro p
  obtain ⟨hrun, hmatches, -⟩ := accepts_glob p "aaba\nc-bbc-c*"
  have haccepts : p.accepts "aaba\nc-bbc-c*" = true := by decide
  exact ⟨by decide, haccepts ▸ hrun 84 (by decide), hmatches.mp haccepts⟩

end AccessPolicy.Pattern

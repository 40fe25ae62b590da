import AccessPolicy.Proofs.Text.Escape
import Mathlib.Data.List.Forall2

/-! # What a pattern matches

A text matches a pattern if it can be cut into pieces, one for each element: a character takes
itself and a wildcard any run. Trying the runs of the last wildcard only loses no match, because a
verdict that no run mends speaks of all texts that the one at hand ends with (`Verdict.Says`). So
the matcher decides the relation (`accepts_iff_matches`). -/

namespace AccessPolicy

/-- The piece of a text that an element may take. -/
def PatternElem.Takes : PatternElem → List Char → Prop
  | .char c, piece => piece = [c]
  | .wildcard, _ => True

namespace Pattern

/-- The text is cut into consecutive pieces, one for each element. -/
def Matches (p : Pattern) (s : List Char) : Prop :=
  ∃ pieces : List (List Char), List.Forall₂ PatternElem.Takes p pieces ∧ pieces.flatten = s

variable {p : Pattern} {s t : List Char} {c d : Char}

theorem matches_nil_iff : Matches [] s ↔ s = [] := by
  constructor
  · rintro ⟨_, ⟨⟩, rfl⟩
    rfl
  · rintro rfl
    exact ⟨[], .nil, rfl⟩

theorem matches_cons_iff {e : PatternElem} :
    Matches (e :: p) s ↔ ∃ piece t, e.Takes piece ∧ Matches p t ∧ piece ++ t = s := by
  constructor
  · rintro ⟨_, _ | ⟨he, hp⟩, rfl⟩
    exact ⟨_, _, he, ⟨_, hp, rfl⟩, rfl⟩
  · rintro ⟨piece, _, he, ⟨pieces, hp, rfl⟩, rfl⟩
    exact ⟨piece :: pieces, .cons he hp, rfl⟩

theorem matches_char_iff : Matches (.char c :: p) s ↔ ∃ t, s = c :: t ∧ Matches p t := by
  rw [matches_cons_iff]
  constructor
  · rintro ⟨_, t, rfl, ht, rfl⟩
    exact ⟨t, rfl, ht⟩
  · rintro ⟨t, rfl, ht⟩
    exact ⟨[c], t, rfl, ht, rfl⟩

theorem matches_char_cons_iff : Matches (.char c :: p) (d :: s) ↔ c = d ∧ Matches p s := by
  rw [matches_char_iff]
  constructor
  · rintro ⟨t, h, ht⟩
    obtain ⟨rfl, rfl⟩ := List.cons.inj h
    exact ⟨rfl, ht⟩
  · rintro ⟨rfl, hs⟩
    exact ⟨s, rfl, hs⟩

theorem not_matches_char_nil : ¬ Matches (.char c :: p) [] := by
  rw [matches_char_iff]
  rintro ⟨t, h, -⟩
  cases h

/-- Behind a wildcard the pattern goes on at any later place. -/
theorem matches_wildcard_iff : Matches (.wildcard :: p) s ↔ ∃ t, t <:+ s ∧ Matches p t := by
  rw [matches_cons_iff]
  constructor
  · rintro ⟨piece, t, -, ht, rfl⟩
    exact ⟨t, List.suffix_append piece t, ht⟩
  · rintro ⟨t, ⟨piece, rfl⟩, ht⟩
    exact ⟨piece, t, trivial, ht, rfl⟩

/-- A wildcard ends its run here, or takes one character more. -/
theorem matches_wildcard_cons_iff :
    Matches (.wildcard :: p) (c :: s) ↔ Matches p (c :: s) ∨ Matches (.wildcard :: p) s := by
  simp only [matches_wildcard_iff, List.suffix_cons_iff]
  constructor
  · rintro ⟨t, rfl | ht, hp⟩
    · exact .inl hp
    · exact .inr ⟨t, ht, hp⟩
  · rintro (hp | ⟨t, ht, hp⟩)
    · exact ⟨c :: s, .inl rfl, hp⟩
    · exact ⟨t, .inr ht, hp⟩

theorem Matches.wildcard_of_suffix (h : Matches (.wildcard :: p) t) (ht : t <:+ s) :
    Matches (.wildcard :: p) s := by
  obtain ⟨u, hu, hp⟩ := matches_wildcard_iff.mp h
  exact matches_wildcard_iff.mpr ⟨u, hu.trans ht, hp⟩

/-! ## Literal patterns -/

/-- Characters that stand for themselves. -/
def literal (cs : List Char) : Pattern := cs.map .char

@[simp] theorem literal_cons (c : Char) (cs : List Char) :
    literal (c :: cs) = .char c :: literal cs := rfl

@[simp] theorem length_literal (cs : List Char) : (literal cs).length = cs.length :=
  List.length_map _

variable {cs : List Char}

theorem matches_literal_append_iff : Matches (literal cs ++ p) (cs ++ s) ↔ Matches p s := by
  induction cs with
  | nil => rfl
  | cons c cs ih =>
    rw [literal_cons, List.cons_append, List.cons_append, matches_char_cons_iff, ih]
    exact and_iff_right rfl

theorem Matches.behind_literal (h : Matches (literal cs ++ p) s) :
    ∃ t, s = cs ++ t ∧ Matches p t := by
  induction cs generalizing s with
  | nil => exact ⟨s, rfl, h⟩
  | cons c cs ih =>
    obtain ⟨u, rfl, hu⟩ := matches_char_iff.mp h
    obtain ⟨t, rfl, ht⟩ := ih hu
    exact ⟨t, rfl, ht⟩

/-- A literal pattern matches what it spells. -/
theorem matches_literal_iff : Matches (literal cs) s ↔ s = cs := by
  induction cs generalizing s with
  | nil => exact matches_nil_iff
  | cons c cs ih =>
    rw [literal_cons, matches_char_iff]
    simp only [ih, exists_eq_right]

/-! ## Verdicts -/

/-- What a verdict says of a pattern and a text. -/
def Verdict.Says (p : Pattern) (s : List Char) : Verdict → Prop
  | .accept => Matches p s
  | .retry => ¬ Matches p s
  | .reject => ∀ t, t <:+ s → ¬ Matches p t

/-- A rest that cannot be mended under the pattern cannot be under a wildcard in front of it. -/
theorem Verdict.Says.wildcard_of_reject (h : Verdict.reject.Says p s) :
    Verdict.reject.Says (.wildcard :: p) s := by
  intro t ht hm
  obtain ⟨u, hu, hp⟩ := matches_wildcard_iff.mp hm
  exact h u (hu.trans ht) hp

/-- A first character that starts no match goes into the run. -/
theorem Verdict.Says.wildcard_cons {v : Verdict} (h : v.Says (.wildcard :: p) s)
    (hc : ¬ Matches p (c :: s)) : v.Says (.wildcard :: p) (c :: s) := by
  have hback : Matches (.wildcard :: p) (c :: s) → Matches (.wildcard :: p) s :=
    fun hm => (matches_wildcard_cons_iff.mp hm).resolve_left hc
  cases v with
  | accept => exact h.wildcard_of_suffix (List.suffix_cons c s)
  | retry => exact fun hm => h (hback hm)
  | reject =>
    intro t ht hm
    rcases List.suffix_cons_iff.mp ht with rfl | ht
    · exact h s (List.suffix_refl s) (hback hm)
    · exact h t ht hm

theorem Verdict.Says.char_cons {v : Verdict} (h : v.Says p s) : v.Says (.char c :: p) (c :: s) := by
  cases v with
  | accept => exact matches_char_cons_iff.mpr ⟨rfl, h⟩
  | retry => exact fun hm => h (matches_char_cons_iff.mp hm).2
  | reject =>
    intro t ht hm
    obtain ⟨u, rfl, hu⟩ := matches_char_iff.mp hm
    rcases List.suffix_cons_iff.mp ht with heq | ht
    · obtain ⟨-, rfl⟩ := List.cons.inj heq
      exact h u (List.suffix_refl u) hu
    · exact h u ((List.suffix_cons c u).trans ht) hu

theorem afterRun_says {attempt : List Char → Verdict} (h : ∀ s, (attempt s).Says p s)
    (s : List Char) : (afterRun attempt s).Says (.wildcard :: p) s := by
  induction s with
  | nil =>
    have hnil := h []
    rw [afterRun]
    cases hv : attempt [] with
    | accept =>
      rw [hv] at hnil
      exact matches_wildcard_iff.mpr ⟨[], List.suffix_refl [], hnil⟩
    | retry =>
      rw [hv] at hnil
      refine Verdict.Says.wildcard_of_reject fun t ht => ?_
      obtain rfl := List.suffix_nil.mp ht
      exact hnil
    | reject =>
      rw [hv] at hnil
      exact hnil.wildcard_of_reject
  | cons c s ih =>
    have hcons := h (c :: s)
    rw [afterRun]
    cases hv : attempt (c :: s) with
    | accept =>
      rw [hv] at hcons
      exact matches_wildcard_iff.mpr ⟨c :: s, List.suffix_refl _, hcons⟩
    | retry =>
      rw [hv] at hcons
      exact ih.wildcard_cons hcons
    | reject =>
      rw [hv] at hcons
      exact hcons.wildcard_of_reject

theorem scan_says (p : Pattern) (s : List Char) : (scan p s).Says p s := by
  induction p generalizing s with
  | nil =>
    cases s with
    | nil => exact matches_nil_iff.mpr rfl
    | cons d s => exact fun h => nomatch matches_nil_iff.mp h
  | cons e p ih =>
    cases e with
    | wildcard => exact afterRun_says ih s
    | char c =>
      cases s with
      | nil =>
        intro t ht
        obtain rfl := List.suffix_nil.mp ht
        exact not_matches_char_nil
      | cons d s =>
        rw [scan]
        split
        · rename_i hcd
          rw [← hcd]
          exact (ih s).char_cons
        · rename_i hcd
          exact fun h => hcd (matches_char_cons_iff.mp h).1

/-- **The matcher decides the relation.** -/
theorem accepts_iff_matches {p : Pattern} {s : String} :
    p.accepts s = true ↔ Matches p s.toList := by
  have hverdict := scan_says p s.toList
  rw [accepts, decide_eq_true_eq]
  cases hv : scan p s.toList with
  | accept =>
    rw [hv] at hverdict
    exact iff_of_true rfl hverdict
  | retry =>
    rw [hv] at hverdict
    exact iff_of_false nofun hverdict
  | reject =>
    rw [hv] at hverdict
    exact iff_of_false nofun (hverdict s.toList (List.suffix_refl _))

/-! ## Literal sources -/

/-- The text with a backslash in front of every star. -/
def starsEscaped (cs : List Char) : List Char :=
  cs.flatMap fun c => if c = '*' then ['\\', '*'] else [c]

theorem starsEscaped_escapeChar (c : Char) :
    starsEscaped (Text.escapeChar c) = elemRaw (.char c) := by
  by_cases hc : c = '*'
  · subst hc
    rfl
  · rw [elemRaw, if_neg hc]
    obtain ⟨d, hd, hsimple, -⟩ | ⟨hplain, -, -⟩ := Text.escapeChar_cases c
    · have hstar : d ≠ '*' := by
        rintro rfl
        exact hc (Option.some.inj hsimple).symm
      simp [hd, starsEscaped, hstar]
    · simp [hplain, starsEscaped, hc]

/-- Escaped text with its stars escaped too is the source of a literal pattern. -/
theorem starsEscaped_escape (cs : List Char) :
    starsEscaped (Text.escape cs) = raw (literal cs) := by
  induction cs with
  | nil => rfl
  | cons c cs ih =>
    have happend : starsEscaped (Text.escapeChar c ++ Text.escape cs) =
        starsEscaped (Text.escapeChar c) ++ starsEscaped (Text.escape cs) := List.flatMap_append
    rw [Text.escape_cons, happend, starsEscaped_escapeChar, ih]
    rfl

theorem accepts_literal_iff {s t : String} : accepts (literal s.toList) t = true ↔ t = s := by
  rw [accepts_iff_matches, matches_literal_iff, String.toList_inj]

end Pattern

end AccessPolicy

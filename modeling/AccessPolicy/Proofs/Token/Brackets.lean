import AccessPolicy.Token.Basic
import Mathlib.Data.List.Basic
import Mathlib.Data.List.Infix
import Mathlib.Data.List.Monad

/-! # Brackets

Round, square and curly brackets among tokens. `nest` keeps the list of those that are open, so a
closing bracket has to fit the innermost of them. Tokens are `Nested` when all their brackets close,
and `Bodies` cuts out what stands inside the outermost curly brackets. -/

namespace AccessPolicy

inductive Bracket where
  | round
  | square
  | curly
  deriving DecidableEq

namespace Bracket

def opening : Bracket → Symbol
  | round => .leftParen
  | square => .leftBracket
  | curly => .leftBrace

def closing : Bracket → Symbol
  | round => .rightParen
  | square => .rightBracket
  | curly => .rightBrace

/-- Closes the innermost open bracket, if it is of this kind. -/
def close (b : Bracket) : List Bracket → Option (List Bracket)
  | [] => none
  | c :: outer => if c = b then some outer else none

end Bracket

/-- The open brackets behind a token, from those before it, the innermost first. -/
def nest (opened : List Bracket) : Kind → Option (List Bracket)
  | .symbol .leftParen => some (.round :: opened)
  | .symbol .leftBracket => some (.square :: opened)
  | .symbol .leftBrace => some (.curly :: opened)
  | .symbol .rightParen => Bracket.round.close opened
  | .symbol .rightBracket => Bracket.square.close opened
  | .symbol .rightBrace => Bracket.curly.close opened
  | _ => some opened

/-- The brackets that some tokens open and do not close, the innermost first; none if one of the
tokens closes what is not open. -/
def unclosed (ts : List Kind) : Option (List Bracket) := ts.foldlM nest []

theorem nest_opening (b : Bracket) (outer : List Bracket) :
    nest outer (.symbol b.opening) = some (b :: outer) := by cases b <;> rfl

theorem nest_closing (b : Bracket) (outer : List Bracket) :
    nest (b :: outer) (.symbol b.closing) = some outer := by cases b <;> rfl

/-! ## Nested tokens -/

/-- Brackets close among the tokens, and of those that they open at most `n` are open at once. -/
structure Nested (n : Nat) (us : List Kind) : Prop where
  closed : ∀ outer, us.foldlM nest outer = some outer
  opened : ∀ vs, vs <+: us →
    ∃ inner, (∀ outer, vs.foldlM nest outer = some (inner ++ outer)) ∧ inner.length ≤ n

/-- The token is no bracket. -/
def NoBracket (k : Kind) : Prop := ∀ outer, nest outer k = some outer

namespace Nested

variable {n m : Nat} {us ws : List Kind}

theorem nil (n : Nat) : Nested n [] where
  closed _ := rfl
  opened vs hvs := by
    rw [List.prefix_nil.1 hvs]
    exact ⟨[], fun _ => rfl, Nat.zero_le n⟩

theorem mono (h : Nested n us) (hm : n ≤ m) : Nested m us where
  closed := h.closed
  opened vs hvs := by
    obtain ⟨inner, hinner, hlen⟩ := h.opened vs hvs
    exact ⟨inner, hinner, hlen.trans hm⟩

theorem cons {k : Kind} (hk : NoBracket k) (h : Nested n us) : Nested n (k :: us) where
  closed outer := by
    rw [List.foldlM_cons, hk outer]
    exact h.closed outer
  opened vs hvs := by
    rcases List.prefix_cons_iff.1 hvs with rfl | ⟨xs, rfl, hxs⟩
    · exact ⟨[], fun _ => rfl, Nat.zero_le n⟩
    · obtain ⟨inner, hinner, hlen⟩ := h.opened xs hxs
      refine ⟨inner, fun outer => ?_, hlen⟩
      rw [List.foldlM_cons, hk outer]
      exact hinner outer

theorem append (hu : Nested n us) (hw : Nested n ws) : Nested n (us ++ ws) where
  closed outer := by
    rw [List.foldlM_append, hu.closed outer]
    exact hw.closed outer
  opened vs hvs := by
    rcases List.prefix_or_prefix_of_prefix hvs (List.prefix_append us ws) with hvs' | ⟨xs, rfl⟩
    · exact hu.opened vs hvs'
    · have hxs : xs <+: ws := (List.prefix_append_right_inj us).1 hvs
      obtain ⟨inner, hinner, hlen⟩ := hw.opened xs hxs
      refine ⟨inner, fun outer => ?_, hlen⟩
      rw [List.foldlM_append, hu.closed outer]
      exact hinner outer

/-- A pair of brackets is open around what it holds, and closed behind it. -/
theorem enclosed (b : Bracket) (h : Nested n us) :
    Nested (n + 1) (.symbol b.opening :: (us ++ [.symbol b.closing])) := by
  have hclosed (outer : List Bracket) :
      List.foldlM nest outer (Kind.symbol b.opening :: (us ++ [Kind.symbol b.closing])) =
        some outer := by
    simp [List.foldlM_cons, List.foldlM_append, nest_opening, h.closed, nest_closing]
  refine ⟨hclosed, fun vs hvs => ?_⟩
  rcases List.prefix_cons_iff.1 hvs with rfl | ⟨xs, rfl, hxs⟩
  · exact ⟨[], fun _ => rfl, Nat.zero_le _⟩
  rcases List.prefix_concat_iff.1 hxs with rfl | hxs
  · exact ⟨[], hclosed, Nat.zero_le _⟩
  · obtain ⟨inner, hinner, hlen⟩ := h.opened xs hxs
    refine ⟨inner ++ [b], fun outer => ?_, ?_⟩
    · rw [List.foldlM_cons, nest_opening, List.append_assoc]
      exact hinner (b :: outer)
    · rw [List.length_append]
      exact Nat.succ_le_succ hlen

theorem unclosed_prefix (h : Nested n us) {vs : List Kind} (hvs : vs <+: us) :
    ∃ opened, unclosed vs = some opened ∧ opened.length ≤ n := by
  obtain ⟨inner, hinner, hlen⟩ := h.opened vs hvs
  refine ⟨inner, ?_, hlen⟩
  have hnil := hinner []
  rwa [List.append_nil] at hnil

end Nested

/-- The tokens before `rest` are nested. -/
def NestedTo (n : Nat) (ts rest : List Kind) : Prop := ∃ us, ts = us ++ rest ∧ Nested n us

namespace NestedTo

variable {n m : Nat} {ts ts' rest : List Kind}

theorem refl (n : Nat) (ts : List Kind) : NestedTo n ts ts := ⟨[], rfl, .nil n⟩

theorem mono (h : NestedTo n ts rest) (hm : n ≤ m) : NestedTo m ts rest := by
  obtain ⟨us, rfl, hus⟩ := h
  exact ⟨us, rfl, hus.mono hm⟩

theorem trans (h : NestedTo n ts ts') (h' : NestedTo n ts' rest) : NestedTo n ts rest := by
  obtain ⟨us, rfl, hus⟩ := h
  obtain ⟨ws, rfl, hws⟩ := h'
  exact ⟨us ++ ws, (List.append_assoc us ws rest).symm, hus.append hws⟩

theorem cons {k : Kind} (hk : NoBracket k) (h : NestedTo n ts rest) :
    NestedTo n (k :: ts) rest := by
  obtain ⟨us, rfl, hus⟩ := h
  exact ⟨k :: us, rfl, hus.cons hk⟩

theorem one {k : Kind} (hk : NoBracket k) : NestedTo n (k :: ts) ts := (refl n ts).cons hk

theorem enclosed (b : Bracket) (h : NestedTo n ts (.symbol b.closing :: rest)) :
    NestedTo (n + 1) (.symbol b.opening :: ts) rest := by
  obtain ⟨us, rfl, hus⟩ := h
  exact ⟨_, by simp, hus.enclosed b⟩

end NestedTo

/-! ## What curly brackets hold -/

def NoBrace (k : Kind) : Prop := k ≠ .symbol .leftBrace ∧ k ≠ .symbol .rightBrace

instance : DecidablePred NoBrace := fun _ => inferInstanceAs (Decidable (_ ∧ _))

theorem noBrace_ident (name : String) : NoBrace (.ident name) := ⟨nofun, nofun⟩

theorem noBrace_string (raw : List Char) : NoBrace (.string raw) := ⟨nofun, nofun⟩

/-- What stands inside the outermost curly brackets, one after the other. -/
inductive Bodies : List Kind → List (List Kind) → Prop where
  | nil : Bodies [] []
  | outside {k ts l} (hk : NoBrace k) (h : Bodies ts l) : Bodies (k :: ts) l
  | body {us ts l} (hus : unclosed us = some []) (h : Bodies ts l) :
    Bodies (.symbol .leftBrace :: (us ++ .symbol .rightBrace :: ts)) (us :: l)

theorem unclosed_append_rightBrace {us : List Kind} (h : unclosed us = some []) (ts : List Kind) :
    unclosed (us ++ .symbol .rightBrace :: ts) = none := by
  unfold unclosed at h ⊢
  rw [List.foldlM_append, h]
  rfl

/-- The curly bracket that closes is the first one that fits. -/
theorem append_rightBrace_inj {us us' ts ts' : List Kind} (hus : unclosed us = some [])
    (hus' : unclosed us' = some [])
    (h : us ++ .symbol .rightBrace :: ts = us' ++ .symbol .rightBrace :: ts') :
    us = us' ∧ ts = ts' := by
  rcases List.append_eq_append_iff.1 h with
    ⟨_ | ⟨x, xs⟩, hxs, hts⟩ | ⟨_ | ⟨x, xs⟩, hxs, hts⟩
  · cases hts
    exact ⟨by rw [hxs, List.append_nil], rfl⟩
  · cases hts
    have hnone := unclosed_append_rightBrace hus xs
    rw [← hxs, hus'] at hnone
    cases hnone
  · cases hts
    exact ⟨by rw [hxs, List.append_nil], rfl⟩
  · cases hts
    have hnone := unclosed_append_rightBrace hus' xs
    rw [← hxs, hus] at hnone
    cases hnone

theorem Bodies.unique {ts : List Kind} {l l' : List (List Kind)} (h : Bodies ts l)
    (h' : Bodies ts l') : l = l' := by
  induction h generalizing l' with
  | nil =>
    cases h'
    rfl
  | outside hk _ ih =>
    cases h' with
    | outside _ h' => exact ih h'
    | body => exact absurd rfl hk.1
  | @body us ts l hus _ ih =>
    generalize hts : us ++ .symbol .rightBrace :: ts = ts' at h'
    cases h' with
    | outside hk => exact absurd rfl hk.1
    | @body us' ts' l' hus' h' =>
      obtain ⟨rfl, rfl⟩ := append_rightBrace_inj hus hus' hts
      rw [ih h']

/-- No curly brackets stand before `rest`, so in `ts` they hold what they hold there. -/
def SameBodies (ts rest : List Kind) : Prop := ∀ l, Bodies rest l → Bodies ts l

namespace SameBodies

variable {ts rest : List Kind}

theorem refl (ts : List Kind) : SameBodies ts ts := fun _ hl => hl

theorem cons {k : Kind} (hk : NoBrace k) (h : SameBodies ts rest) : SameBodies (k :: ts) rest :=
  fun l hl => .outside hk (h l hl)

end SameBodies

end AccessPolicy

import AccessPolicy.Text.Literal
import Mathlib.Data.Nat.Digits.Defs
import Mathlib.Data.List.Forall2
import Mathlib.Tactic.IntervalCases

/-! # Numerals of code points

The code point of a Unicode escape is written by hexadecimal digits, and read by a reader of numbers
that lets a plus sign stand in front of them. -/

namespace AccessPolicy.Text

/-- A hexadecimal digit, of either case, and its value. -/
def HexDigit (c : Char) (d : Nat) : Prop :=
  d < 16 ∧ (c = Nat.digitChar d ∨ c = (Nat.digitChar d).toUpper)

instance (c : Char) (d : Nat) : Decidable (HexDigit c d) := inferInstanceAs (Decidable (_ ∧ _))

/-- Hexadecimal digits, at least one, that write a number. -/
structure HexNumeral (h : List Char) (n : Nat) : Prop where
  ne_nil : h ≠ []
  digits : ∃ ds, List.Forall₂ HexDigit h ds ∧ n = Nat.ofDigits 16 ds.reverse

/-- A plus sign may stand in front of the digits. -/
inductive SignedNumeral : List Char → Nat → Prop where
  | unsigned {h : List Char} {n : Nat} (hn : HexNumeral h n) : SignedNumeral h n
  | plus {h : List Char} {n : Nat} (hn : HexNumeral h n) : SignedNumeral ('+' :: h) n

/-! ## Digits -/

theorem toNat_lt_of_hexDigit? {c : Char} {d : Nat} (h : hexDigit? c = some d) :
    c.toNat < 128 := by
  unfold hexDigit? at h
  split_ifs at h with h9 hf hF
  · exact Nat.lt_of_le_of_lt (show c.toNat ≤ '9'.toNat from h9.2) (by decide)
  · exact Nat.lt_of_le_of_lt (show c.toNat ≤ 'f'.toNat from hf.2) (by decide)
  · exact Nat.lt_of_le_of_lt (show c.toNat ≤ 'F'.toNat from hF.2) (by decide)

theorem hexDigit?_eq_some_iff {c : Char} {d : Nat} : hexDigit? c = some d ↔ HexDigit c d := by
  constructor
  · intro h
    have hascii : ∀ n < 128, ∀ d ∈ hexDigit? (Char.ofNat n), HexDigit (Char.ofNat n) d := by
      decide
    have hc := hascii c.toNat (toNat_lt_of_hexDigit? h)
    rw [Char.ofNat_toNat] at hc
    exact hc d h
  · rintro ⟨hd, rfl | rfl⟩
    · interval_cases d <;> rfl
    · interval_cases d <;> rfl

/-- A character of one byte that ends neither a numeral nor a literal and starts no escape. -/
structure Inert (c : Char) : Prop where
  size : c.utf8Size = 1
  ne_close : c ≠ '\x7d'
  ne_slash : c ≠ '\\'
  ne_quote : c ≠ '"'

theorem HexDigit.inert {c : Char} {d : Nat} (h : HexDigit c d) : Inert c := by
  obtain ⟨hd, rfl | rfl⟩ := h
  · interval_cases d <;> exact ⟨by decide, by decide, by decide, by decide⟩
  · interval_cases d <;> exact ⟨by decide, by decide, by decide, by decide⟩

theorem inert_of_digits {h : List Char} {ds : List Nat} (hds : List.Forall₂ HexDigit h ds) :
    ∀ c ∈ h, Inert c := by
  induction hds with
  | nil => simp
  | cons hd _ ih => exact List.forall_mem_cons.mpr ⟨hd.inert, ih⟩

theorem HexNumeral.inert {h : List Char} {n : Nat} (hn : HexNumeral h n) : ∀ c ∈ h, Inert c := by
  obtain ⟨ds, hds, -⟩ := hn.digits
  exact inert_of_digits hds

theorem SignedNumeral.inert {h : List Char} {n : Nat} (hn : SignedNumeral h n) :
    ∀ c ∈ h, Inert c := by
  cases hn with
  | unsigned hn => exact hn.inert
  | plus hn =>
    have hplus : Inert '+' := ⟨by decide, by decide, by decide, by decide⟩
    exact List.forall_mem_cons.mpr ⟨hplus, hn.inert⟩

/-! ## Numbers -/

theorem hexValue?_eq_some_iff {acc n : Nat} {h : List Char} :
    hexValue? acc h = some n ↔ ∃ ds, List.Forall₂ HexDigit h ds ∧
      n = Nat.ofDigits 16 ds.reverse + 16 ^ h.length * acc := by
  induction h generalizing acc with
  | nil => simp [hexValue?, eq_comm]
  | cons c h ih =>
    -- The first digit is the last one of the reversed list, with the highest weight.
    have hweight : ∀ d ds, List.Forall₂ HexDigit h ds →
        Nat.ofDigits 16 (d :: ds).reverse + 16 ^ (c :: h).length * acc =
          Nat.ofDigits 16 ds.reverse + 16 ^ h.length * (16 * acc + d) := by
      intro d ds hds
      rw [List.reverse_cons, Nat.ofDigits_append, Nat.ofDigits_singleton, List.length_reverse,
        ← hds.length_eq, List.length_cons, Nat.pow_succ]
      ring
    rw [hexValue?, Option.bind_eq_some_iff]
    simp only [hexDigit?_eq_some_iff, ih]
    constructor
    · rintro ⟨d, hd, ds, hds, rfl⟩
      exact ⟨d :: ds, .cons hd hds, (hweight d ds hds).symm⟩
    · rintro ⟨_, _ | ⟨hd, hds⟩, rfl⟩
      exact ⟨_, hd, _, hds, hweight _ _ hds⟩

theorem hexNumeral_iff {h : List Char} {n : Nat} :
    HexNumeral h n ↔ h ≠ [] ∧ hexValue? 0 h = some n := by
  rw [hexValue?_eq_some_iff]
  simp only [Nat.mul_zero, Nat.add_zero]
  exact ⟨fun hn => ⟨hn.ne_nil, hn.digits⟩, fun hn => ⟨hn.1, hn.2⟩⟩

theorem HexNumeral.not_plus {h : List Char} {n : Nat} : ¬ HexNumeral ('+' :: h) n := by
  intro hn
  cases (hexNumeral_iff.mp hn).2

theorem codePoint?_eq_some_iff {h : List Char} {n : Nat} :
    codePoint? h = some n ↔ SignedNumeral h n := by
  constructor
  · intro hn
    unfold codePoint? at hn
    split at hn
    · cases hn
    · exact .plus (hexNumeral_iff.mpr ⟨nofun, hn⟩)
    · rename_i hnil _
      exact .unsigned (hexNumeral_iff.mpr ⟨hnil, hn⟩)
  · intro hn
    cases hn with
    | unsigned hn =>
      unfold codePoint?
      split
      · exact absurd rfl hn.ne_nil
      · exact absurd hn HexNumeral.not_plus
      · exact (hexNumeral_iff.mp hn).2
    | @plus h n hn =>
      cases h with
      | nil => exact absurd rfl hn.ne_nil
      | cons c cs => exact (hexNumeral_iff.mp hn).2

theorem scalar_eq_ok_iff {h : List Char} {c : Char} :
    scalar h = .ok c ↔ SignedNumeral h c.toNat := by
  rw [← codePoint?_eq_some_iff, scalar]
  cases codePoint? h with
  | none => simp
  | some n =>
    by_cases hn : n.isValidChar
    · have hchar : (Char.ofNat n).toNat = n := by
        rw [Char.ofNat, dif_pos hn]
        rfl
      simp only [hn, if_true, Except.ok.injEq, Option.some.injEq]
      constructor
      · rintro rfl
        exact hchar.symm
      · rintro rfl
        exact Char.ofNat_toNat c
    · simp only [hn, if_false, reduceCtorEq, Option.some.injEq, false_iff]
      rintro rfl
      exact hn c.valid

end AccessPolicy.Text

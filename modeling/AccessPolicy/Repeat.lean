/-! The first element of a list that also occurs before its place. -/

namespace AccessPolicy

/-- The first element that is among `seen` or equals one before it. -/
def firstRepeat? {α : Type} [DecidableEq α] (seen : List α) : List α → Option α
  | [] => none
  | a :: l => if a ∈ seen then some a else firstRepeat? (a :: seen) l

theorem firstRepeat?_eq_none_iff {α : Type} [DecidableEq α] {seen l : List α} :
    firstRepeat? seen l = none ↔ l.Nodup ∧ ∀ a ∈ l, a ∉ seen := by
  induction l generalizing seen with
  | nil => simp [firstRepeat?]
  | cons a l ih =>
    by_cases h : a ∈ seen
    · simp [firstRepeat?, h]
    · simp only [firstRepeat?, h, if_false, ih, List.nodup_cons, List.mem_cons]
      grind

end AccessPolicy

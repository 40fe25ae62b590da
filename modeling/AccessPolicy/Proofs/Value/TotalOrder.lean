import AccessPolicy.Proofs.Sorted
import AccessPolicy.Proofs.Value.Order
import Mathlib.Data.Bool.Basic
import Mathlib.Data.Int.Order.Basic
import Mathlib.Data.Prod.Basic
import Mathlib.Data.String.Basic
import Mathlib.Tactic.MkIffOfInductiveProp

/-! # Values are in a total order

`Value.Less` says which of two values comes first, by kinds and then by what the values hold: sets
and records as the sequences of their elements and fields, references by type and then by id. The
comparison decides it (`compare_eq_lt_iff`). Since the order is total, a list of values has one
ascending listing, which tells what the list holds and how often. -/

namespace AccessPolicy.Value

/-- The first value comes before the second one. -/
@[mk_iff]
inductive Less : Value → Value → Prop where
  | kind {v w} (h : v.type.rank < w.type.rank) : Less v w
  | bool : Less (.bool false) (.bool true)
  | long {m n} (h : m < n) : Less (.long m) (.long n)
  | string {s t} (h : s < t) : Less (.string s) (.string t)
  | set {xs ys} (h : List.Lex Less xs ys) : Less (.set xs) (.set ys)
  | record {fs gs} (h : List.Lex (Prod.Lex (· < ·) Less) fs gs) : Less (.record fs) (.record gs)
  | entity {u v : Uid}
    (h : Prod.Lex (· < ·) (· < ·) (u.entityType, u.id) (v.entityType, v.id)) :
    Less (.entity u) (.entity v)

/-! ## The comparison decides the order -/

theorem less_iff_of_type_ne {v w : Value} (h : v.type ≠ w.type) :
    Less v w ↔ v.type.rank < w.type.rank := by
  constructor
  · intro hless
    cases hless with
    | kind hrank => exact hrank
    | _ => exact absurd rfl h
  · exact .kind

/-- Within a kind the contents tell. -/
theorem less_bool_iff {a b : Bool} : Less (.bool a) (.bool b) ↔ a < b := by
  rw [Bool.lt_iff]
  simp [less_iff, type]

theorem less_long_iff {m n : Int} : Less (.long m) (.long n) ↔ m < n := by
  simp [less_iff, type]

theorem less_string_iff {s t : String} : Less (.string s) (.string t) ↔ s < t := by
  simp [less_iff, type]

theorem less_set_iff {xs ys : List Value} :
    Less (.set xs) (.set ys) ↔ List.Lex Less xs ys := by
  simp [less_iff, type]

theorem less_record_iff {fs gs : List (String × Value)} :
    Less (.record fs) (.record gs) ↔ List.Lex (Prod.Lex (· < ·) Less) fs gs := by
  simp [less_iff, type]

theorem less_entity_iff {u v : Uid} : Less (.entity u) (.entity v) ↔
    Prod.Lex (· < ·) (· < ·) (u.entityType, u.id) (v.entityType, v.id) := by
  simp [less_iff, type]

theorem uid_compare_eq_lt_iff {u v : Uid} : Uid.compare u v = .lt ↔
    Prod.Lex (· < ·) (· < ·) (u.entityType, u.id) (v.entityType, v.id) := by
  rw [Uid.compare, Ordering.then_eq_lt, compare_lt_iff_lt, compare_lt_iff_lt, compare_eq_iff_eq,
    Prod.lex_iff]

mutual

theorem compare_eq_lt_iff (v w : Value) : Value.compare v w = .lt ↔ Less v w := by
  by_cases h : w.type = v.type
  · match v, w, h with
    | .bool a, .bool b, _ => exact (compare_lt_iff_lt (a := a)).trans less_bool_iff.symm
    | .long m, .long n, _ => exact (compare_lt_iff_lt (a := m)).trans less_long_iff.symm
    | .string s, .string t, _ => exact (compare_lt_iff_lt (a := s)).trans less_string_iff.symm
    | .set xs, .set ys, _ => exact (compareItems_eq_lt_iff xs ys).trans less_set_iff.symm
    | .record fs, .record gs, _ =>
      exact (compareFields_eq_lt_iff fs gs).trans less_record_iff.symm
    | .entity u, .entity u', _ => exact uid_compare_eq_lt_iff.trans less_entity_iff.symm
  · rw [compare_of_type_ne (Ne.symm h), less_iff_of_type_ne (Ne.symm h), Nat.compare_eq_lt]

theorem compareItems_eq_lt_iff :
    ∀ xs ys : List Value, compareItems xs ys = .lt ↔ List.Lex Less xs ys
  | [], [] => by simp [compareItems]
  | [], _ :: _ => by simp [compareItems]
  | _ :: _, [] => by simp [compareItems]
  | x :: xs, y :: ys => by
    rw [compareItems_cons_lt, compare_eq_lt_iff x y, compareItems_eq_lt_iff xs ys,
      List.cons_lex_cons_iff]

theorem compareFields_eq_lt_iff : ∀ fs gs : List (String × Value),
    compareFields fs gs = .lt ↔ List.Lex (Prod.Lex (· < ·) Less) fs gs
  | [], [] => by simp [compareFields]
  | [], _ :: _ => by simp [compareFields]
  | _ :: _, [] => by simp [compareFields]
  | (j, x) :: fs, (k, y) :: gs => by
    rw [compareFields_cons_lt, FieldLt, compare_eq_lt_iff x y, compareFields_eq_lt_iff fs gs,
      List.cons_lex_cons_iff, Prod.lex_iff, compare_lt_iff_lt]

end

theorem Less.trans {u v w : Value} (huv : Less u v) (hvw : Less v w) : Less u w :=
  (compare_eq_lt_iff u w).1
    (lt_trans u v w ((compare_eq_lt_iff u v).2 huv) ((compare_eq_lt_iff v w).2 hvw))

/-- The values of a list in ascending order, each as often as it is in the list. -/
def sort (l : List Value) : List Value := Sorted.sort Value.compare l

end AccessPolicy.Value

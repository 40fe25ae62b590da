import AccessPolicy.Store
import Mathlib.Logic.Relation

/-! # The search along parent edges

`reach` visits positions from a queue and never one twice (`nodup_reach`): one
that is visited is no longer left. What it returns lies on paths from the queue
(`exists_path_of_mem_reach`); it holds the queue itself (`mem_reach_of_mem_queue`)
and with a position all its successors (`mem_reach_of_edge`), as far as they may
be visited. The two last facts carry the completeness: whatever a path reaches is
in a set that is closed under edges. Together they make `closure` the positions on
non-empty paths, on graphs with cycles too. -/

namespace AccessPolicy.Store

/-- An edge between two positions of a graph. -/
def Edge (edges : List (List Nat)) (p q : Nat) : Prop := q ∈ edges.getD p [] ∧ q < edges.length

variable {edges : List (List Nat)} {left queue : List Nat} {p q : Nat}

theorem mem_left_of_mem_reach (h : p ∈ reach edges left queue) : p ∈ left := by
  fun_induction reach edges left queue with
  | case1 => cases h
  | case2 left r queue hr ih =>
    rcases List.mem_cons.mp h with rfl | h
    · exact hr
    · exact List.mem_of_mem_erase (ih h)
  | case3 left r queue hr ih => exact ih h

/-- A position that is visited may not be visited again. -/
theorem nodup_reach (h : left.Nodup) : (reach edges left queue).Nodup := by
  fun_induction reach edges left queue with
  | case1 => exact .nil
  | case2 left r queue hr ih =>
    have hfresh : r ∉ reach edges (left.erase r) (queue ++ edges.getD r []) :=
      fun hmem => h.not_mem_erase (mem_left_of_mem_reach hmem)
    exact List.nodup_cons.2 ⟨hfresh, ih (h.erase r)⟩
  | case3 left r queue hr ih => exact ih h

theorem exists_path_of_mem_reach (h : p ∈ reach edges left queue) :
    ∃ q ∈ queue, Relation.ReflTransGen (fun a b => b ∈ edges.getD a []) q p := by
  fun_induction reach edges left queue with
  | case1 => cases h
  | case2 left r queue hr ih =>
    rcases List.mem_cons.mp h with rfl | h
    · exact ⟨p, List.mem_cons_self, .refl⟩
    · obtain ⟨q, hq, hpath⟩ := ih h
      rcases List.mem_append.mp hq with hq | hq
      · exact ⟨q, List.mem_cons_of_mem r hq, hpath⟩
      · exact ⟨r, List.mem_cons_self, .head hq hpath⟩
  | case3 left r queue hr ih =>
    obtain ⟨q, hq, hpath⟩ := ih h
    exact ⟨q, List.mem_cons_of_mem r hq, hpath⟩

theorem mem_reach_of_mem_queue (hq : q ∈ queue) (hl : q ∈ left) : q ∈ reach edges left queue := by
  fun_induction reach edges left queue with
  | case1 => cases hq
  | case2 left r queue hr ih =>
    by_cases hqr : q = r
    · exact hqr ▸ List.mem_cons_self
    · have hq' : q ∈ queue := (List.mem_cons.mp hq).resolve_left hqr
      exact List.mem_cons_of_mem r
        (ih (List.mem_append_left _ hq') ((List.mem_erase_of_ne hqr).mpr hl))
  | case3 left r queue hr ih =>
    rcases List.mem_cons.mp hq with rfl | hq
    · exact absurd hl hr
    · exact ih hq hl

/-- What is visited is closed under edges to positions that may be visited. -/
theorem mem_reach_of_edge (hp : p ∈ reach edges left queue) (he : q ∈ edges.getD p [])
    (hl : q ∈ left) : q ∈ reach edges left queue := by
  fun_induction reach edges left queue with
  | case1 => cases hp
  | case2 left r queue hr ih =>
    by_cases hqr : q = r
    · exact hqr ▸ List.mem_cons_self
    have hl' : q ∈ left.erase r := (List.mem_erase_of_ne hqr).mpr hl
    refine List.mem_cons_of_mem r ?_
    rcases List.mem_cons.mp hp with rfl | hp
    · exact mem_reach_of_mem_queue (List.mem_append_right _ he) hl'
    · exact ih hp hl'
  | case3 left r queue hr ih => exact ih hp hl

theorem lt_length_of_mem_getD (h : q ∈ edges.getD p []) : p < edges.length := by
  rcases Nat.lt_or_ge p edges.length with hp | hp
  · exact hp
  · rw [List.getD_eq_getElem?_getD, List.getElem?_eq_none hp] at h
    cases h

/-- A path to a position of the graph stays within the graph. -/
theorem path_within (hq : q < edges.length)
    (h : Relation.ReflTransGen (fun a b => b ∈ edges.getD a []) p q) :
    p < edges.length ∧ Relation.ReflTransGen (Edge edges) p q := by
  induction h using Relation.ReflTransGen.head_induction_on with
  | refl => exact ⟨hq, .refl⟩
  | head hab _ ih => exact ⟨lt_length_of_mem_getD hab, .head ⟨hab, ih.1⟩ ih.2⟩

/-- The search visits no position twice. -/
theorem nodup_closure (s : Store) (i : Nat) : (s.closure i).Nodup := nodup_reach List.nodup_range

/-- The closure holds the positions at the ends of non-empty paths. -/
theorem mem_closure_iff {s : Store} {i j : Nat} :
    j ∈ s.closure i ↔ Relation.TransGen (Edge s.edges) i j := by
  constructor
  · intro h
    have hj : j < s.edges.length := List.mem_range.mp (mem_left_of_mem_reach h)
    obtain ⟨q, hq, hpath⟩ := exists_path_of_mem_reach h
    obtain ⟨hlt, hwithin⟩ := path_within hj hpath
    exact .head' ⟨hq, hlt⟩ hwithin
  · intro h
    induction h with
    | single h => exact mem_reach_of_mem_queue h.1 (List.mem_range.mpr h.2)
    | tail _ h ih => exact mem_reach_of_edge ih h.1 (List.mem_range.mpr h.2)

end AccessPolicy.Store

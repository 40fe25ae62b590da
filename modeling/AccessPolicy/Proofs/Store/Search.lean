import AccessPolicy.Proofs.Store.Reach
import Mathlib.Data.List.Nodup

/-! # The search stays within the graph

`Search` is the search along edges one position at a time. A step looks up the edges of the position
that it visits and cannot be taken where the graph has no such position. In a closed graph, where
every edge leads to a position of the graph, a step keeps all positions within the graph, so every
step can be taken (`run?_within`). Some number of steps empties the queue, and what is visited then
is what `reach` returns (`exists_run?_reach`). -/

namespace AccessPolicy.Store

/-- Every edge leads to a position of the graph. -/
def Closed (edges : List (List Nat)) : Prop := ∀ out ∈ edges, ∀ p ∈ out, p < edges.length

theorem Closed.lt_of_mem_getD {edges : List (List Nat)} (h : Closed edges) {p : Nat} :
    ∀ q ∈ edges.getD p [], q < edges.length := by
  intro q hq
  have hp := lt_length_of_mem_getD hq
  rw [List.getD_eq_getElem?_getD, List.getElem?_eq_getElem hp, Option.getD_some] at hq
  exact h _ (List.getElem_mem hp) q hq

/-- A search on its way: the positions visited so far and those in the queue. -/
structure Search where
  visited : List Nat
  queue : List Nat

namespace Search

/-- Takes a position off the queue. If it is new, it is visited and the ends of its edges are
queued. There is no next state if the graph does not have the position. -/
def next? (edges : List (List Nat)) (x : Search) : Option Search :=
  match x.queue with
  | [] => some x
  | p :: queue =>
    if p ∈ x.visited then some ⟨x.visited, queue⟩
    else edges[p]?.map fun out => ⟨x.visited ++ [p], queue ++ out⟩

def run? (edges : List (List Nat)) : Nat → Search → Option Search
  | 0, x => some x
  | n + 1, x => (x.next? edges).bind (run? edges n)

/-- All positions of the search are positions of the graph. -/
structure Within (edges : List (List Nat)) (x : Search) : Prop where
  visited : ∀ p ∈ x.visited, p < edges.length
  queue : ∀ p ∈ x.queue, p < edges.length

variable {edges : List (List Nat)} {x : Search} {visited queue : List Nat} {p : Nat}

theorem next?_of_mem (hp : p ∈ visited) :
    next? edges ⟨visited, p :: queue⟩ = some ⟨visited, queue⟩ := if_pos hp

theorem next?_of_not_mem (hp : p ∉ visited) (hlt : p < edges.length) :
    next? edges ⟨visited, p :: queue⟩ = some ⟨visited ++ [p], queue ++ edges.getD p []⟩ := by
  simp only [next?, if_neg hp, List.getD_eq_getElem?_getD, List.getElem?_eq_getElem hlt,
    Option.map_some, Option.getD_some]

theorem next?_within (hclosed : Closed edges) (h : x.Within edges) :
    ∃ y, x.next? edges = some y ∧ y.Within edges := by
  obtain ⟨visited, queue⟩ := x
  cases queue with
  | nil => exact ⟨_, rfl, h⟩
  | cons p queue =>
    obtain ⟨hp, hqueue⟩ := List.forall_mem_cons.1 h.queue
    by_cases hv : p ∈ visited
    · exact ⟨_, next?_of_mem hv, h.visited, hqueue⟩
    · refine ⟨_, next?_of_not_mem hv hp, List.forall_mem_append.2 ⟨h.visited, ?_⟩,
        List.forall_mem_append.2 ⟨hqueue, hclosed.lt_of_mem_getD⟩⟩
      exact List.forall_mem_singleton.2 hp

/-- However far a search in a closed graph goes, the graph has all its positions. -/
theorem run?_within (hclosed : Closed edges) (h : x.Within edges) (n : Nat) :
    ∃ y, run? edges n x = some y ∧ y.Within edges := by
  induction n generalizing x with
  | zero => exact ⟨x, rfl, h⟩
  | succ n ih =>
    obtain ⟨y, hnext, hy⟩ := next?_within hclosed h
    obtain ⟨z, hrun, hz⟩ := ih hy
    exact ⟨z, by rw [run?, hnext, Option.bind_some, hrun], hz⟩

/-- The search ends, and `left`, the positions not yet visited, tell what it visits. -/
theorem exists_run?_reach {left : List Nat} (hclosed : Closed edges)
    (hqueue : ∀ p ∈ queue, p < edges.length) (hnodup : left.Nodup)
    (hleft : ∀ p, p ∈ left ↔ p < edges.length ∧ p ∉ visited) :
    ∃ n, run? edges n ⟨visited, queue⟩ = some ⟨visited ++ reach edges left queue, []⟩ := by
  fun_induction reach edges left queue generalizing visited with
  | case1 => exact ⟨0, by simp [run?]⟩
  | case2 left p queue hp ih =>
    obtain ⟨hlt, hv⟩ := (hleft p).1 hp
    obtain ⟨-, hqueue⟩ := List.forall_mem_cons.1 hqueue
    have hqueue' : ∀ q ∈ queue ++ edges.getD p [], q < edges.length :=
      List.forall_mem_append.2 ⟨hqueue, hclosed.lt_of_mem_getD⟩
    have hleft' : ∀ q, q ∈ left.erase p ↔ q < edges.length ∧ q ∉ visited ++ [p] := by
      intro q
      rw [hnodup.mem_erase_iff, hleft]
      simp only [List.mem_append, List.mem_singleton, not_or, ne_eq]
      tauto
    obtain ⟨n, hn⟩ := ih hqueue' (hnodup.erase p) hleft'
    refine ⟨n + 1, ?_⟩
    rw [run?, next?_of_not_mem hv hlt, Option.bind_some, hn, List.append_assoc,
      List.singleton_append]
  | case3 left p queue hp ih =>
    obtain ⟨hlt, hqueue⟩ := List.forall_mem_cons.1 hqueue
    have hv : p ∈ visited := by
      by_contra hv
      exact hp ((hleft p).2 ⟨hlt, hv⟩)
    obtain ⟨n, hn⟩ := ih hqueue hnodup hleft
    exact ⟨n + 1, by rw [run?, next?_of_mem hv, Option.bind_some, hn]⟩

end Search

/-- The search from the ends of the edges of a position ends with its closure. -/
theorem exists_run?_closure {s : Store} (hclosed : Closed s.edges) {i : Nat} {out : List Nat}
    (hi : s.edges[i]? = some out) :
    ∃ n, Search.run? s.edges n ⟨[], out⟩ = some ⟨s.closure i, []⟩ := by
  have hout : s.edges.getD i [] = out := by rw [List.getD_eq_getElem?_getD, hi, Option.getD_some]
  have hqueue : ∀ p ∈ out, p < s.edges.length := hclosed _ (List.mem_of_getElem? hi)
  have hleft : ∀ p, p ∈ List.range s.edges.length ↔ p < s.edges.length ∧ p ∉ ([] : List Nat) := by
    simp
  obtain ⟨n, hn⟩ := Search.exists_run?_reach hclosed hqueue List.nodup_range hleft
  exact ⟨n, by rw [hn, closure, hout, List.nil_append]⟩

end AccessPolicy.Store

import AccessPolicy.Proofs.Parse.Takes
import AccessPolicy.Proofs.Sorted
import AccessPolicy.Proofs.Value.Order
import Mathlib.Data.List.Forall2

/-! # Lists of results

A list is gone through from the front and the first error ends it. So it succeeds exactly if all of
its elements do (`mapM_eq_ok_iff`), and then what it gives is what they give. Collected into a set,
the order and the repetition of the results do not matter (`mapM_ofItems_eq_ok_iff`). -/

namespace AccessPolicy

variable {α β ε : Type} {f g : α → Except ε β} {as : List α} {bs : List β}

theorem mapM_eq_ok_iff : as.mapM f = .ok bs ↔ List.Forall₂ (fun a b => f a = .ok b) as bs := by
  induction as generalizing bs with
  | nil => simp [pure, Except.pure, eq_comm]
  | cons a as ih =>
    rw [List.mapM_cons, Parse.bind_eq_ok_iff, List.forall₂_cons_left_iff]
    refine exists_congr fun b => ?_
    rw [Parse.bind_eq_ok_iff]
    simp only [ih, pure, Except.pure, Except.ok.injEq]
    constructor
    · rintro ⟨hb, bs, hbs, rfl⟩
      exact ⟨bs, hb, hbs, rfl⟩
    · rintro ⟨bs, hb, hbs, rfl⟩
      exact ⟨hb, bs, hbs, rfl⟩

theorem mapM_map_eq_ok {ι : Type} {l : List ι} {a : ι → α} {b : ι → β}
    (h : ∀ i ∈ l, f (a i) = .ok (b i)) : (l.map a).mapM f = .ok (l.map b) := by
  rw [mapM_eq_ok_iff, List.forall₂_map_left_iff, List.forall₂_map_right_iff, List.forall₂_same]
  exact h

theorem exists_mapM_eq_ok_iff : (∃ bs, as.mapM f = .ok bs) ↔ ∀ a ∈ as, ∃ b, f a = .ok b := by
  simp only [mapM_eq_ok_iff]
  induction as with
  | nil => simp
  | cons a as ih =>
    rw [List.forall_mem_cons, ← ih]
    simp only [List.forall₂_cons_left_iff]
    constructor
    · rintro ⟨_, b, bs, hb, hbs, -⟩
      exact ⟨⟨b, hb⟩, bs, hbs⟩
    · rintro ⟨⟨b, hb⟩, bs, hbs⟩
      exact ⟨b :: bs, b, bs, hb, hbs, rfl⟩

theorem mem_iff_of_mapM_eq_ok (h : as.mapM f = .ok bs) {b : β} :
    b ∈ bs ↔ ∃ a ∈ as, f a = .ok b := by
  rw [mapM_eq_ok_iff] at h
  induction h with
  | nil => simp
  | @cons a c as bs hc _ ih =>
    rw [List.exists_mem_cons_iff, List.mem_cons, ih, hc, Except.ok.injEq, eq_comm]

/-- A list of results depends on the successes of its elements alone. -/
theorem mapM_eq_ok_of_forall (h : ∀ a ∈ as, ∀ b, f a = .ok b → g a = .ok b)
    (hf : as.mapM f = .ok bs) : as.mapM g = .ok bs := by
  rw [mapM_eq_ok_iff] at hf ⊢
  induction hf with
  | nil => exact .nil
  | cons hb _ ih =>
    obtain ⟨ha, has⟩ := List.forall_mem_cons.1 h
    exact .cons (ha _ hb) (ih has)

/-- The results make a set if and only if all of them are values, and these are its elements. -/
theorem mapM_ofItems_eq_ok_iff {f : α → Except ε Value} {v : Value} :
    (as.mapM f >>= fun vs => .ok (Value.ofItems vs)) = .ok v ↔
      ∃ ws, v = .set ws ∧ Sorted.Increasing Value.compare ws ∧ (∀ a ∈ as, ∃ w, f a = .ok w) ∧
        ∀ w, w ∈ ws ↔ ∃ a ∈ as, f a = .ok w := by
  rw [Parse.bind_eq_ok_iff]
  simp only [Except.ok.injEq]
  constructor
  · rintro ⟨vs, hvs, rfl⟩
    exact ⟨_, rfl, Sorted.increasing_ofList vs, exists_mapM_eq_ok_iff.1 ⟨vs, hvs⟩, fun w =>
      Sorted.mem_ofList.trans (mem_iff_of_mapM_eq_ok hvs)⟩
  · rintro ⟨ws, rfl, hws, hall, hmem⟩
    obtain ⟨vs, hvs⟩ := exists_mapM_eq_ok_iff.2 hall
    exact ⟨vs, hvs, congrArg Value.set (Sorted.ofList_eq_of_mem_iff hws fun w =>
      (mem_iff_of_mapM_eq_ok hvs).trans (hmem w).symm)⟩

end AccessPolicy

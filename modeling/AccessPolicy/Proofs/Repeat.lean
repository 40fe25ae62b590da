import AccessPolicy.Repeat

/-! # The first place of a list

`IsFirst` names the element at the first place of a list where a condition holds, which may look
at what stands before the place and behind it. A search for a repetition stops there
(`firstRepeat?_map_eq_some_iff`). -/

namespace AccessPolicy

variable {α : Type}

/-- `a` stands at the first place where `P` holds of the elements before it, itself and the
elements behind it. -/
def IsFirst (P : List α → α → List α → Prop) (l : List α) (a : α) : Prop :=
  ∃ before after, l = before ++ a :: after ∧ P before a after ∧
    ∀ front b between, before = front ++ b :: between → ¬ P front b (between ++ a :: after)

namespace IsFirst

variable {P Q : List α → α → List α → Prop} {l : List α} {a b : α}

theorem not_nil : ¬ IsFirst P [] a := by
  intro h
  obtain ⟨before, after, hl, -, -⟩ := h
  simp at hl

theorem cons_iff :
    IsFirst P (b :: l) a ↔
      P [] b l ∧ a = b ∨ ¬ P [] b l ∧ IsFirst (fun before => P (b :: before)) l a := by
  constructor
  · intro h
    obtain ⟨before, after, hl, hP, hfirst⟩ := h
    cases before with
    | nil =>
      obtain ⟨rfl, rfl⟩ := List.cons.inj hl
      exact .inl ⟨hP, rfl⟩
    | cons c before =>
      obtain ⟨rfl, rfl⟩ := List.cons.inj hl
      refine .inr ⟨hfirst [] b before rfl, before, after, rfl, hP, ?_⟩
      intro front d between hbefore
      exact hfirst (b :: front) d between (congrArg (b :: ·) hbefore)
  · intro h
    obtain ⟨hP, rfl⟩ | ⟨hb, before, after, rfl, hP, hfirst⟩ := h
    · exact ⟨[], l, rfl, hP, by simp⟩
    · refine ⟨b :: before, after, rfl, hP, ?_⟩
      intro front c between hbefore
      cases front with
      | nil =>
        obtain ⟨rfl, rfl⟩ := List.cons.inj hbefore
        exact hb
      | cons d front =>
        obtain ⟨rfl, hrest⟩ := List.cons.inj hbefore
        exact hfirst front c between hrest

theorem cons_of_not_holds (h : ¬ P [] b l) :
    IsFirst P (b :: l) a ↔ IsFirst (fun before => P (b :: before)) l a := by
  simp [cons_iff, h]

/-- Conditions that agree at every place of the list have the same first place. -/
theorem congr
    (h : ∀ before b after, l = before ++ b :: after → (P before b after ↔ Q before b after)) :
    IsFirst P l a ↔ IsFirst Q l a := by
  refine exists_congr fun before => exists_congr fun after => and_congr_right ?_
  intro hl
  refine and_congr (h before a after hl) (forall_congr' fun front => ?_)
  refine forall_congr' fun b => forall_congr' fun between => forall_congr' fun hbefore => ?_
  refine not_congr (h front b _ ?_)
  rw [hl, hbefore, List.append_assoc, List.cons_append]

end IsFirst

/-- The search finds the key of the first element whose key is among those seen or that of an
element before it. -/
theorem firstRepeat?_map_eq_some_iff {β : Type} [DecidableEq β] {f : α → β} {seen : List β}
    {l : List α} {b : β} :
    firstRepeat? seen (l.map f) = some b ↔
      ∃ a, IsFirst (fun before a _ => f a ∈ seen ∨ f a ∈ before.map f) l a ∧ f a = b := by
  induction l generalizing seen with
  | nil => simp [firstRepeat?, IsFirst.not_nil]
  | cons c l ih =>
    rw [List.map_cons, firstRepeat?]
    by_cases hc : f c ∈ seen
    · rw [if_pos hc, Option.some.injEq]
      constructor
      · intro hb
        exact ⟨c, IsFirst.cons_iff.2 (.inl ⟨.inl hc, rfl⟩), hb⟩
      · intro h
        obtain ⟨a, hfirst, rfl⟩ := h
        obtain ⟨-, rfl⟩ | ⟨hnot, -⟩ := IsFirst.cons_iff.1 hfirst
        · rfl
        · exact absurd (.inl hc) hnot
    · have hfirst : ¬ (f c ∈ seen ∨ f c ∈ ([] : List α).map f) := by simp [hc]
      rw [if_neg hc, ih]
      refine exists_congr fun a => and_congr_left fun _ => ?_
      rw [IsFirst.cons_of_not_holds hfirst]
      refine IsFirst.congr fun before d after _ => ?_
      simp only [List.mem_cons, List.map_cons, or_assoc, or_left_comm]

end AccessPolicy

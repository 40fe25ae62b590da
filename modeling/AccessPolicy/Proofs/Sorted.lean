import AccessPolicy.Sorted
import Mathlib.Data.List.Induction
import Mathlib.Data.List.Sort

/-! # Lists in increasing order

For a lawful order, `Sorted.ofList` keeps the elements of a list and puts them
into strictly increasing order, so each of them once. `Fields.ofList` does so with
named fields. A list in increasing order comes back from any listing of its elements
(`Sorted.ofList_eq_of_mem_iff`, `Fields.ofList_of_perm`). `Sorted.sort` drops nothing, and its
order is strict where nothing is repeated (`Sorted.increasing_sort`). -/

namespace AccessPolicy.Sorted

variable {α : Type} {cmp : α → α → Ordering}

/-- Each element is smaller than all behind it. -/
def Increasing (cmp : α → α → Ordering) (l : List α) : Prop := l.Pairwise fun a b => cmp a b = .lt

/-- A map that keeps the order keeps the sorted list. -/
theorem ofList_map {β : Type} {cmp' : β → β → Ordering} {f : α → β}
    (hf : ∀ a b, cmp' (f a) (f b) = cmp a b) (l : List α) :
    ofList cmp' (l.map f) = (ofList cmp l).map f := by
  have hinsert : ∀ (a : α) (l : List α), insert cmp' (f a) (l.map f) = (insert cmp a l).map f := by
    intro a l
    induction l with
    | nil => rfl
    | cons b l ih =>
      rw [List.map_cons, insert, insert, hf]
      cases cmp a b with
      | lt | eq => rfl
      | gt => simp [ih]
  induction l with
  | nil => rfl
  | cons a l ih =>
    change insert cmp' (f a) (ofList cmp' (l.map f)) = _
    rw [ih, hinsert]
    rfl

/-- A list in increasing order is kept as it is. -/
theorem ofList_of_increasing {l : List α} (h : Increasing cmp l) : ofList cmp l = l := by
  induction l with
  | nil => rfl
  | cons a l ih =>
    obtain ⟨ha, hl⟩ := List.pairwise_cons.1 h
    have hinsert : ofList cmp (a :: l) = insert cmp a l := congrArg (insert cmp a) (ih hl)
    rw [hinsert]
    cases l with
    | nil => rfl
    | cons b l => simp only [insert, ha b List.mem_cons_self]

theorem mem_insert [Std.LawfulEqCmp cmp] {a b : α} {l : List α} :
    b ∈ insert cmp a l ↔ b = a ∨ b ∈ l := by
  induction l with
  | nil => simp [insert]
  | cons c l ih =>
    rw [insert]
    cases h : cmp a c with
    | lt => simp
    | eq =>
      have hac : a = c := Std.LawfulEqCmp.eq_of_compare h
      simp [hac]
    | gt => simp only [List.mem_cons, ih, or_left_comm]

theorem mem_ofList [Std.LawfulEqCmp cmp] {b : α} {l : List α} : b ∈ ofList cmp l ↔ b ∈ l := by
  induction l with
  | nil => rfl
  | cons a l ih =>
    change b ∈ insert cmp a (ofList cmp l) ↔ b ∈ a :: l
    rw [mem_insert, ih, List.mem_cons]

theorem sort_perm (l : List α) : (sort cmp l).Perm l := List.mergeSort_perm l _

theorem mem_sort {a : α} {l : List α} : a ∈ sort cmp l ↔ a ∈ l := (sort_perm l).mem_iff

variable [Std.TransCmp cmp]

theorem Increasing.insert [Std.LawfulEqCmp cmp] {a : α} {l : List α} (h : Increasing cmp l) :
    Increasing cmp (insert cmp a l) := by
  induction l with
  | nil => exact List.pairwise_singleton _ a
  | cons c l ih =>
    obtain ⟨hc, hl⟩ := List.pairwise_cons.mp h
    rw [Sorted.insert]
    cases hac : cmp a c with
    | lt =>
      refine List.pairwise_cons.mpr ⟨fun b hb => ?_, h⟩
      rcases List.mem_cons.mp hb with rfl | hb
      · exact hac
      · exact Std.TransCmp.lt_trans hac (hc b hb)
    | eq => exact h
    | gt =>
      refine List.pairwise_cons.mpr ⟨fun b hb => ?_, ih hl⟩
      rcases mem_insert.mp hb with rfl | hb
      · exact Std.OrientedCmp.gt_iff_lt.mp hac
      · exact hc b hb

theorem increasing_ofList [Std.LawfulEqCmp cmp] (l : List α) : Increasing cmp (ofList cmp l) := by
  induction l with
  | nil => exact .nil
  | cons a l ih => exact ih.insert

theorem pairwise_sort (l : List α) : (sort cmp l).Pairwise fun a b => (cmp a b).isLE = true := by
  have htotal : ∀ a b, ((cmp a b).isLE || (cmp b a).isLE) = true := by
    intro a b
    have hswap : cmp b a = (cmp a b).swap := Std.OrientedCmp.eq_swap
    rw [hswap]
    cases cmp a b <;> rfl
  exact List.pairwise_mergeSort (fun _ _ _ => Std.TransCmp.isLE_trans) htotal l

/-- Distinct elements are in strictly increasing order when they are sorted. -/
theorem increasing_sort [Std.LawfulEqCmp cmp] {l : List α} (h : l.Nodup) :
    Increasing cmp (sort cmp l) := by
  have hdistinct : (sort cmp l).Nodup := (sort_perm l).nodup_iff.2 h
  refine (pairwise_sort l).imp₂ (fun a b hle hne => ?_) hdistinct
  cases hcmp : cmp a b with
  | lt => rfl
  | eq => exact absurd (Std.LawfulEqCmp.eq_of_compare hcmp) hne
  | gt =>
    rw [hcmp] at hle
    cases hle

/-- A list in increasing order is told by its elements. -/
theorem eq_of_mem_iff {xs ys : List α} (hx : Increasing cmp xs) (hy : Increasing cmp ys)
    (h : ∀ a, a ∈ xs ↔ a ∈ ys) : xs = ys := by
  have hasymm : ∀ a b, cmp a b = .lt → ¬ cmp b a = .lt := by
    intro a b hab hba
    rw [Std.OrientedCmp.gt_iff_lt.mpr hab] at hba
    cases hba
  have : Std.Antisymm fun a b => cmp a b = .lt := ⟨fun a b hab hba => absurd hba (hasymm a b hab)⟩
  have : Std.Irrefl fun a b => cmp a b = .lt := ⟨fun a haa => hasymm a a haa haa⟩
  exact List.Pairwise.eq_of_mem_iff hx hy h

/-- Collecting the elements of an increasing list, in any order and with repetitions, gives it. -/
theorem ofList_eq_of_mem_iff [Std.LawfulEqCmp cmp] {xs ys : List α} (hy : Increasing cmp ys)
    (h : ∀ a, a ∈ xs ↔ a ∈ ys) : ofList cmp xs = ys :=
  eq_of_mem_iff (increasing_ofList xs) hy fun a => mem_ofList.trans (h a)

end AccessPolicy.Sorted

namespace AccessPolicy.Fields

variable {α : Type}

/-- The names of the fields are in strictly increasing order. -/
def Increasing (fs : List (String × α)) : Prop := Sorted.Increasing compare (fs.map Prod.fst)

theorem Increasing.nodup {fs : List (String × α)} (h : Increasing fs) :
    (fs.map Prod.fst).Nodup := by
  refine List.Pairwise.imp ?_ h
  rintro a b hab rfl
  rw [Std.ReflOrd.compare_self] at hab
  cases hab

theorem eq_or_mem_of_mem_insert {k : String} {v : α} {fs : List (String × α)} {f : String × α}
    (h : f ∈ insert k v fs) : f = (k, v) ∨ f ∈ fs := by
  induction fs with
  | nil => exact .inl (List.mem_singleton.mp h)
  | cons g fs ih =>
    rw [insert] at h
    split at h
    · exact List.mem_cons.mp h
    · exact (List.mem_cons.mp h).imp_right (List.mem_cons_of_mem g)
    · rcases List.mem_cons.mp h with rfl | h
      · exact .inr List.mem_cons_self
      · exact (ih h).imp_right (List.mem_cons_of_mem g)

theorem mem_insert {k : String} {v : α} {fs : List (String × α)} (hk : k ∉ fs.map Prod.fst)
    {f : String × α} : f ∈ insert k v fs ↔ f = (k, v) ∨ f ∈ fs := by
  refine ⟨eq_or_mem_of_mem_insert, fun h => ?_⟩
  induction fs with
  | nil => simpa [insert] using h
  | cons g fs ih =>
    obtain ⟨hg, hfs⟩ := not_or.1 (mt List.mem_cons.2 hk)
    rw [insert]
    cases hcmp : compare k g.1 with
    | lt => exact List.mem_cons.2 h
    | eq => exact absurd (Std.LawfulEqOrd.eq_of_compare hcmp) hg
    | gt =>
      rcases h with h | h
      · exact List.mem_cons_of_mem g (ih hfs (.inl h))
      · rcases List.mem_cons.1 h with rfl | h
        · exact List.mem_cons_self
        · exact List.mem_cons_of_mem g (ih hfs (.inr h))

/-- The names change as a set of names does. -/
theorem map_fst_insert (k : String) (v : α) (fs : List (String × α)) :
    (insert k v fs).map Prod.fst = Sorted.insert compare k (fs.map Prod.fst) := by
  induction fs with
  | nil => rfl
  | cons g fs ih =>
    rw [insert, List.map_cons, Sorted.insert]
    cases hcmp : compare k g.1 with
    | lt => rfl
    | eq => simp [Std.LawfulEqOrd.eq_of_compare hcmp]
    | gt => simp [ih]

theorem ofList_append_singleton (fs : List (String × α)) (f : String × α) :
    ofList (fs ++ [f]) = insert f.1 f.2 (ofList fs) := List.foldl_concat _ _ _ _

theorem Increasing.insert {k : String} {v : α} {fs : List (String × α)} (h : Increasing fs) :
    Increasing (insert k v fs) := by
  rw [Increasing, map_fst_insert]
  exact Sorted.Increasing.insert h

theorem increasing_ofList (fs : List (String × α)) : Increasing (ofList fs) := by
  induction fs using List.reverseRecOn with
  | nil => exact .nil
  | append_singleton fs f ih =>
    rw [ofList_append_singleton]
    exact ih.insert

theorem mem_of_mem_ofList {fs : List (String × α)} {f : String × α} (h : f ∈ ofList fs) :
    f ∈ fs := by
  induction fs using List.reverseRecOn with
  | nil => exact absurd h List.not_mem_nil
  | append_singleton fs g ih =>
    rw [ofList_append_singleton] at h
    rcases eq_or_mem_of_mem_insert h with rfl | h
    · exact List.mem_append_right fs (List.mem_singleton_self _)
    · exact List.mem_append_left [g] (ih h)

theorem mem_of_find? {fs : List (String × α)} {k : String} {v : α} (h : find? fs k = some v) :
    (k, v) ∈ fs := by
  obtain ⟨before, after, rfl, -⟩ := List.lookup_eq_some_iff.mp h
  exact List.mem_append_right _ List.mem_cons_self

theorem ne_of_find?_eq_none {fs : List (String × α)} {k : String} (h : find? fs k = none)
    {f : String × α} (hf : f ∈ fs) : f.1 ≠ k := by
  have hne := List.lookup_eq_none_iff.mp h f hf
  exact fun hk => absurd hk.symm (by simpa using hne)

@[simp] theorem find?_nil (j : String) : find? ([] : List (String × α)) j = none := rfl

theorem find?_cons (k : String) (v : α) (fs : List (String × α)) (j : String) :
    find? ((k, v) :: fs) j = if j = k then some v else find? fs j := by
  rw [find?, List.lookup_cons]
  by_cases hj : j = k
  · rw [if_pos hj, hj, beq_self_eq_true]
  · rw [if_neg hj, beq_false_of_ne hj]
    rfl

/-- Inserting binds the name and no other, in any list of fields. -/
theorem find?_insert (k : String) (v : α) (fs : List (String × α)) (j : String) :
    find? (insert k v fs) j = if j = k then some v else find? fs j := by
  induction fs with
  | nil => exact find?_cons k v [] j
  | cons f fs ih =>
    obtain ⟨i, w⟩ := f
    rw [insert]
    cases hcmp : compare k i with
    | lt => exact find?_cons k v _ j
    | eq =>
      obtain rfl := Std.LawfulEqOrd.eq_of_compare hcmp
      by_cases hj : j = k <;> simp [find?_cons, hj]
    | gt =>
      have hne : i ≠ k := by
        rintro rfl
        simp at hcmp
      by_cases hj : j = i <;> simp [find?_cons, ih, hj, hne]

theorem find?_map {β : Type} (g : α → β) (fs : List (String × α)) (k : String) :
    find? (fs.map fun f => (f.1, g f.2)) k = (find? fs k).map g := by
  induction fs with
  | nil => rfl
  | cons f fs ih =>
    obtain ⟨j, v⟩ := f
    simp only [find?, List.map_cons, List.lookup_cons] at ih ⊢
    cases k == j with
    | true => rfl
    | false => exact ih

/-- Fields with distinct names are kept, all of them. -/
theorem mem_ofList {fs : List (String × α)} (h : (fs.map Prod.fst).Nodup) {f : String × α} :
    f ∈ ofList fs ↔ f ∈ fs := by
  refine ⟨mem_of_mem_ofList, fun hf => ?_⟩
  induction fs using List.reverseRecOn with
  | nil => exact absurd hf List.not_mem_nil
  | append_singleton fs g ih =>
    rw [List.map_append, List.map_singleton] at h
    obtain ⟨hfs, -, hdisjoint⟩ := List.nodup_append.1 h
    have hg : g.1 ∉ (ofList fs).map Prod.fst := by
      intro hmem
      obtain ⟨e, he, hname⟩ := List.mem_map.1 hmem
      exact hdisjoint e.1 (List.mem_map_of_mem (mem_of_mem_ofList he)) g.1 (by simp) hname
    rw [ofList_append_singleton, mem_insert hg]
    rcases List.mem_append.1 hf with hf | hf
    · exact .inr (ih hfs hf)
    · exact .inl (List.mem_singleton.1 hf)

/-- Fields in increasing order are told by what is among them. -/
theorem eq_of_mem_iff {fs gs : List (String × α)} (hfs : Increasing fs) (hgs : Increasing gs)
    (h : ∀ f, f ∈ fs ↔ f ∈ gs) : fs = gs := by
  have hfs' : Sorted.Increasing (compareOn Prod.fst) fs := List.pairwise_map.1 hfs
  exact Sorted.eq_of_mem_iff hfs' (List.pairwise_map.1 hgs) h

/-- A name among fields of distinct names is bound to the value beside it. -/
theorem find?_eq_some_iff {fs : List (String × α)} (h : (fs.map Prod.fst).Nodup) {k : String}
    {v : α} : find? fs k = some v ↔ (k, v) ∈ fs := by
  refine ⟨mem_of_find?, fun hmem => ?_⟩
  induction fs with
  | nil => exact absurd hmem List.not_mem_nil
  | cons f fs ih =>
    obtain ⟨hf, hfs⟩ := List.nodup_cons.1 h
    rcases List.mem_cons.1 hmem with rfl | hmem
    · exact List.lookup_cons_self
    · have hne : k ≠ f.1 := fun hk => hf (hk ▸ List.mem_map_of_mem hmem)
      rw [find?, List.lookup_cons, beq_false_of_ne hne]
      exact ih hfs hmem

/-- Fields in increasing order are told by what each name is bound to. -/
theorem eq_of_find?_eq {fs gs : List (String × α)} (hfs : Increasing fs) (hgs : Increasing gs)
    (h : ∀ k, find? fs k = find? gs k) : fs = gs := by
  refine eq_of_mem_iff hfs hgs fun f => ?_
  rw [← find?_eq_some_iff hfs.nodup, ← find?_eq_some_iff hgs.nodup, h]

/-- Collecting the fields of an increasing list in any order gives it. -/
theorem ofList_of_perm {fs gs : List (String × α)} (hp : gs.Perm fs) (h : Increasing fs) :
    ofList gs = fs := by
  have hnodup : (gs.map Prod.fst).Nodup := (hp.map Prod.fst).nodup_iff.2 h.nodup
  exact eq_of_mem_iff (increasing_ofList gs) h fun f => (mem_ofList hnodup).trans hp.mem_iff

/-- Fields in increasing order are kept as they are. -/
theorem ofList_of_increasing {fs : List (String × α)} (h : Increasing fs) : ofList fs = fs :=
  ofList_of_perm (.refl fs) h

end AccessPolicy.Fields

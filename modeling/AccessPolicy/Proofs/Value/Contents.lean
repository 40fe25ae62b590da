import AccessPolicy.Proofs.Eval.Within
import AccessPolicy.Proofs.Value.Order

/-! # Values by their contents

Two values are alike if they have the same elements and the same fields at all depths, in whatever
order and with whatever repetitions. Canonical values are equal if they are alike
(`Canonical.eq_iff_alike`). -/

namespace AccessPolicy

namespace Value

/-- Each element of one set is alike to an element of the other, and each field of one record is
alike to a field of the same name of the other; values without contents are equal. -/
def Alike : Value → Value → Prop
  | .set xs, .set ys =>
    (∀ x, ∀ _ : x ∈ xs, ∃ y ∈ ys, x.Alike y) ∧ ∀ y ∈ ys, ∃ x, ∃ _ : x ∈ xs, x.Alike y
  | .record fs, .record gs =>
    (∀ f, ∀ _ : f ∈ fs, ∃ g ∈ gs, f.1 = g.1 ∧ f.2.Alike g.2) ∧
      ∀ g ∈ gs, ∃ f, ∃ _ : f ∈ fs, f.1 = g.1 ∧ f.2.Alike g.2
  | v, w => v = w
termination_by v => sizeOf v
decreasing_by
  · exact sizeOf_lt_of_mem_parts (v := .set xs) ‹_›
  · exact sizeOf_lt_of_mem_parts ‹_›
  · exact sizeOf_lt_of_mem_parts (List.mem_map_of_mem ‹_›)
  · exact sizeOf_lt_of_mem_parts (List.mem_map_of_mem ‹_›)

theorem alike_set_iff {xs ys : List Value} : (set xs).Alike (set ys) ↔
    (∀ x ∈ xs, ∃ y ∈ ys, x.Alike y) ∧ ∀ y ∈ ys, ∃ x ∈ xs, x.Alike y := by
  rw [Alike]
  simp only [exists_prop]

theorem alike_record_iff {fs gs : List (String × Value)} : (record fs).Alike (record gs) ↔
    (∀ f ∈ fs, ∃ g ∈ gs, f.1 = g.1 ∧ f.2.Alike g.2) ∧
      ∀ g ∈ gs, ∃ f ∈ fs, f.1 = g.1 ∧ f.2.Alike g.2 := by
  rw [Alike]
  simp only [exists_prop]

theorem Alike.refl (v : Value) : v.Alike v := by
  cases v with
  | bool _ | long _ | string _ | entity _ => simp only [Alike]
  | set xs =>
    have hself : ∀ x ∈ xs, x.Alike x := fun x _ => refl x
    exact alike_set_iff.mpr ⟨fun x hx => ⟨x, hx, hself x hx⟩, fun x hx => ⟨x, hx, hself x hx⟩⟩
  | record fs =>
    have hself : ∀ f ∈ fs, f.2.Alike f.2 := fun f _ => refl f.2
    exact alike_record_iff.mpr
      ⟨fun f hf => ⟨f, hf, rfl, hself f hf⟩, fun f hf => ⟨f, hf, rfl, hself f hf⟩⟩
termination_by sizeOf v
decreasing_by
  · exact sizeOf_lt_of_mem_parts (v := .set xs) ‹_›
  · exact sizeOf_lt_of_mem_parts (List.mem_map_of_mem ‹_›)

/-- By induction on the first value: an element that is alike to one of the other set is equal to
it, so both sets have the same elements, and they are in order. -/
theorem Canonical.eq_of_alike {v w : Value} (hv : v.Canonical) (hw : w.Canonical)
    (h : v.Alike w) : v = w := by
  induction hv generalizing w with
  | @intro v hordered _ ih =>
    cases v with
    | bool _ | long _ | string _ | entity _ => simpa only [Alike] using h
    | set xs =>
      cases w with
      | set ys =>
        obtain ⟨hxs, hys⟩ := alike_set_iff.mp h
        have heq : ∀ x ∈ xs, ∀ y ∈ ys, x.Alike y → x = y := fun x hx y hy =>
          ih x hx (hw.inside y hy)
        refine congrArg set (Sorted.eq_of_mem_iff hordered hw.here fun z => ⟨?_, ?_⟩)
        · intro hz
          obtain ⟨y, hy, hzy⟩ := hxs z hz
          exact heq z hz y hy hzy ▸ hy
        · intro hz
          obtain ⟨x, hx, hxz⟩ := hys z hz
          exact heq x hx z hz hxz ▸ hx
      | _ => simpa only [Alike] using h
    | record fs =>
      cases w with
      | record gs =>
        obtain ⟨hfs, hgs⟩ := alike_record_iff.mp h
        have heq : ∀ f ∈ fs, ∀ g ∈ gs, f.1 = g.1 → f.2.Alike g.2 → f = g := by
          intro f hf g hg hname hvalue
          exact Prod.ext hname (ih f.2 (List.mem_map_of_mem hf)
            (hw.inside g.2 (List.mem_map_of_mem hg)) hvalue)
        refine congrArg record (Fields.eq_of_mem_iff hordered hw.here fun k => ⟨?_, ?_⟩)
        · intro hk
          obtain ⟨g, hg, hname, hvalue⟩ := hfs k hk
          exact heq k hk g hg hname hvalue ▸ hg
        · intro hk
          obtain ⟨f, hf, hname, hvalue⟩ := hgs k hk
          exact heq f hf k hk hname hvalue ▸ hf
      | _ => simpa only [Alike] using h

/-- **Equality of canonical values is that of their contents.** -/
theorem Canonical.eq_iff_alike {v w : Value} (hv : v.Canonical) (hw : w.Canonical) :
    v = w ↔ v.Alike w := by
  refine ⟨?_, hv.eq_of_alike hw⟩
  rintro rfl
  exact .refl v

theorem Canonical.set_eq_iff {xs ys : List Value} (hxs : (set xs).Canonical)
    (hys : (set ys).Canonical) : set xs = set ys ↔ ∀ x, x ∈ xs ↔ x ∈ ys := by
  rw [set.injEq]
  refine ⟨?_, Sorted.eq_of_mem_iff hxs.here hys.here⟩
  rintro rfl x
  rfl

theorem Canonical.record_eq_iff {fs gs : List (String × Value)} (hfs : (record fs).Canonical)
    (hgs : (record gs).Canonical) :
    record fs = record gs ↔ ∀ k, Fields.find? fs k = Fields.find? gs k := by
  rw [record.injEq]
  refine ⟨?_, Fields.eq_of_find?_eq hfs.here hgs.here⟩
  rintro rfl k
  rfl

end Value

end AccessPolicy

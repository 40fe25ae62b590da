import AccessPolicy.Value.Order

/-! # The order of values is lawful

References and values are in strict total orders: two of them compare one way round as they do the
other way round, and smaller than smaller is smaller. Values of two kinds compare by the ranks of
their kinds; within a kind the order is that of the contents, which for sets and records is
lexicographic, so the laws of elements and fields go through the sequences by one lemma
(`lex_trans`). -/

namespace AccessPolicy

instance : Std.TransCmp Uid.compare :=
  inferInstanceAs (Std.TransCmp (compareLex (compareOn Uid.entityType) (compareOn Uid.id)))

instance : Std.LawfulEqCmp Uid.compare := ⟨Uid.compare_eq_eq_iff.mp⟩

theorem ValueType.rank_injective {s t : ValueType} (h : s.rank = t.rank) : s = t := by
  cases s <;> cases t <;> first | rfl | simp [rank] at h

namespace Value

theorem compare_of_type_ne {v w : Value} (h : v.type ≠ w.type) :
    Value.compare v w = Ord.compare v.type.rank w.type.rank := by
  cases v <;> cases w <;> first | rfl | exact absurd rfl h

theorem rank_le_of_lt {v w : Value} (h : Value.compare v w = .lt) :
    v.type.rank ≤ w.type.rank := by
  by_cases htype : v.type = w.type
  · exact Nat.le_of_eq (congrArg ValueType.rank htype)
  · rw [compare_of_type_ne htype] at h
    exact Nat.le_of_lt (Nat.compare_eq_lt.1 h)

/-! ## The other way round -/

mutual

theorem compare_swap (v w : Value) : Value.compare v w = (Value.compare w v).swap := by
  by_cases h : w.type = v.type
  · match v, w, h with
    | .bool a, .bool b, _ => exact Std.OrientedOrd.eq_swap (a := a)
    | .long m, .long n, _ => exact Std.OrientedOrd.eq_swap (a := m)
    | .string s, .string t, _ => exact Std.OrientedOrd.eq_swap (a := s)
    | .set xs, .set ys, _ => exact compareItems_swap xs ys
    | .record fs, .record gs, _ => exact compareFields_swap fs gs
    | .entity u, .entity u', _ => exact @Std.OrientedCmp.eq_swap Uid Uid.compare _ u u'
  · rw [compare_of_type_ne (Ne.symm h), compare_of_type_ne h]
    exact Std.OrientedCmp.eq_swap

theorem compareItems_swap :
    ∀ xs ys : List Value, compareItems xs ys = (compareItems ys xs).swap
  | [], [] => rfl
  | [], _ :: _ => rfl
  | _ :: _, [] => rfl
  | x :: xs, y :: ys => by
    rw [compareItems, compareItems, Ordering.swap_then, ← compare_swap x y,
      ← compareItems_swap xs ys]

theorem compareFields_swap :
    ∀ fs gs : List (String × Value), compareFields fs gs = (compareFields gs fs).swap
  | [], [] => rfl
  | [], _ :: _ => rfl
  | _ :: _, [] => rfl
  | (j, x) :: fs, (k, y) :: gs => by
    rw [compareFields, compareFields, Ordering.swap_then, Ordering.swap_then, ← compare_swap x y,
      ← compareFields_swap fs gs, ← Std.OrientedOrd.eq_swap (a := j)]

end

/-! ## Smaller than smaller -/

/-- A lexicographic step from `a` over `b` to `c`. -/
theorem lex_trans {α : Type} (r : α → α → Prop) {a b c : α} {p q s : Prop}
    (hr : r a b → r b c → r a c) (hs : p → q → s) (hab : r a b ∨ a = b ∧ p)
    (hbc : r b c ∨ b = c ∧ q) : r a c ∨ a = c ∧ s := by
  rcases hab with hab | ⟨rfl, hp⟩
  · rcases hbc with hbc | ⟨rfl, -⟩
    · exact .inl (hr hab hbc)
    · exact .inl hab
  · exact hbc.imp_right fun ⟨hac, hq⟩ => ⟨hac, hs hp hq⟩

theorem compareItems_cons_lt {x y : Value} {xs ys : List Value} :
    compareItems (x :: xs) (y :: ys) = .lt ↔
      Value.compare x y = .lt ∨ x = y ∧ compareItems xs ys = .lt := by
  rw [compareItems, Ordering.then_eq_lt, compare_eq_eq_iff]

/-- A field is smaller by its name, or else by its value. -/
def FieldLt (f g : String × Value) : Prop :=
  Ord.compare f.1 g.1 = .lt ∨ f.1 = g.1 ∧ Value.compare f.2 g.2 = .lt

theorem FieldLt.trans {f g h : String × Value}
    (hvalue : Value.compare f.2 g.2 = .lt → Value.compare g.2 h.2 = .lt →
      Value.compare f.2 h.2 = .lt) (hfg : FieldLt f g) (hgh : FieldLt g h) : FieldLt f h :=
  lex_trans (fun j k => Ord.compare j k = .lt) Std.TransCmp.lt_trans hvalue hfg hgh

theorem compareFields_cons_lt {f g : String × Value} {fs gs : List (String × Value)} :
    compareFields (f :: fs) (g :: gs) = .lt ↔
      FieldLt f g ∨ f = g ∧ compareFields fs gs = .lt := by
  rw [compareFields, Ordering.then_eq_lt, Ordering.then_eq_lt, Ordering.then_eq_eq,
    Std.LawfulEqOrd.compare_eq_iff_eq, compare_eq_eq_iff, ← Prod.ext_iff, FieldLt]

mutual

theorem lt_trans (u v w : Value) (huv : Value.compare u v = .lt) (hvw : Value.compare v w = .lt) :
    Value.compare u w = .lt := by
  have hle := rank_le_of_lt huv
  have hle' := rank_le_of_lt hvw
  by_cases hw : w.type = u.type
  · have hv : v.type = u.type :=
      ValueType.rank_injective (Nat.le_antisymm (hw ▸ hle') hle)
    match u, v, w, hv, hw with
    | .bool a, .bool b, .bool c, _, _ => exact @Std.TransCmp.lt_trans Bool compare _ a b c huv hvw
    | .long l, .long m, .long n, _, _ => exact @Std.TransCmp.lt_trans Int compare _ l m n huv hvw
    | .string r, .string s, .string t, _, _ =>
      exact @Std.TransCmp.lt_trans String compare _ r s t huv hvw
    | .set xs, .set ys, .set zs, _, _ => exact items_lt_trans xs ys zs huv hvw
    | .record es, .record fs, .record gs, _, _ => exact fields_lt_trans es fs gs huv hvw
    | .entity a, .entity b, .entity c, _, _ =>
      exact @Std.TransCmp.lt_trans Uid Uid.compare _ a b c huv hvw
  · rw [compare_of_type_ne (Ne.symm hw), Nat.compare_eq_lt]
    exact Nat.lt_of_le_of_ne (Nat.le_trans hle hle') fun h => hw (ValueType.rank_injective h.symm)

theorem items_lt_trans : ∀ xs ys zs : List Value, compareItems xs ys = .lt →
    compareItems ys zs = .lt → compareItems xs zs = .lt
  | _, [], [], _, h => nomatch h
  | _, _ :: _, [], _, h => nomatch h
  | [], [], _ :: _, h, _ => nomatch h
  | _ :: _, [], _ :: _, h, _ => nomatch h
  | [], _ :: _, _ :: _, _, _ => rfl
  | x :: xs, y :: ys, z :: zs, hxy, hyz =>
    compareItems_cons_lt.2 (lex_trans (fun v w => Value.compare v w = .lt) (lt_trans x y z)
      (items_lt_trans xs ys zs) (compareItems_cons_lt.1 hxy) (compareItems_cons_lt.1 hyz))

theorem fields_lt_trans : ∀ es fs gs : List (String × Value), compareFields es fs = .lt →
    compareFields fs gs = .lt → compareFields es gs = .lt
  | _, [], [], _, h => nomatch h
  | _, _ :: _, [], _, h => nomatch h
  | [], [], _ :: _, h, _ => nomatch h
  | _ :: _, [], _ :: _, h, _ => nomatch h
  | [], _ :: _, _ :: _, _, _ => rfl
  | (i, x) :: es, (j, y) :: fs, (k, z) :: gs, hxy, hyz =>
    compareFields_cons_lt.2 (lex_trans FieldLt (FieldLt.trans (lt_trans x y z))
      (fields_lt_trans es fs gs) (compareFields_cons_lt.1 hxy) (compareFields_cons_lt.1 hyz))

end

instance : Std.LawfulEqCmp Value.compare where
  compare_self := compare_self _
  eq_of_compare := eq_of_compare

instance : Std.TransCmp Value.compare where
  eq_swap := compare_swap _ _
  isLE_trans {u v w} huv hvw := by
    rw [Ordering.isLE_iff_eq_lt_or_eq_eq, compare_eq_eq_iff] at huv hvw ⊢
    rcases huv with huv | rfl
    · rcases hvw with hvw | rfl
      · exact .inl (lt_trans u v w huv hvw)
      · exact .inl huv
    · exact hvw

end Value

end AccessPolicy

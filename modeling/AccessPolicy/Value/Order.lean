import AccessPolicy.Value.Basic

/-! The order of values: by kind first (booleans, longs, strings, sets, records, references),
then within a kind; sets and records as the sequences of their elements and fields. Values that
compare equal are equal, so equality is decided by the order. -/

namespace AccessPolicy

/-- The place of a kind in the order of values. -/
def ValueType.rank : ValueType → Nat
  | .bool => 0
  | .long => 1
  | .string => 2
  | .set => 3
  | .record => 4
  | .entity => 5

namespace Value

mutual

protected def compare : Value → Value → Ordering
  | .bool a, .bool b => Ord.compare a b
  | .long m, .long n => Ord.compare m n
  | .string s, .string t => Ord.compare s t
  | .set xs, .set ys => compareItems xs ys
  | .record fs, .record gs => compareFields fs gs
  | .entity u, .entity v => Uid.compare u v
  | v, w => Ord.compare v.type.rank w.type.rank

/-- Lexicographic; a proper initial part is smaller. -/
def compareItems : List Value → List Value → Ordering
  | [], [] => .eq
  | [], _ :: _ => .lt
  | _ :: _, [] => .gt
  | x :: xs, y :: ys => (Value.compare x y).then (compareItems xs ys)

/-- Lexicographic; each field by its name, then by its value. -/
def compareFields : List (String × Value) → List (String × Value) → Ordering
  | [], [] => .eq
  | [], _ :: _ => .lt
  | _ :: _, [] => .gt
  | (j, x) :: fs, (k, y) :: gs =>
    ((Ord.compare j k).then (Value.compare x y)).then (compareFields fs gs)

end

mutual

theorem eq_of_compare : ∀ {v w : Value}, Value.compare v w = .eq → v = w
  | .bool a, w, h => by cases w <;> simp_all [Value.compare, type, ValueType.rank]
  | .long n, w, h => by cases w <;> simp_all [Value.compare, type, ValueType.rank]
  | .string s, w, h => by cases w <;> simp_all [Value.compare, type, ValueType.rank]
  | .entity u, w, h => by
    cases w <;> simp_all [Value.compare, type, ValueType.rank, Uid.compare_eq_eq_iff]
  | .set xs, .set ys, h => by
    rw [Value.compare] at h
    rw [items_eq_of_compare h]
  | .record fs, .record gs, h => by
    rw [Value.compare] at h
    rw [fields_eq_of_compare h]
  | .set _, .bool _, h | .set _, .long _, h | .set _, .string _, h | .set _, .record _, h
  | .set _, .entity _, h | .record _, .bool _, h | .record _, .long _, h
  | .record _, .string _, h | .record _, .set _, h | .record _, .entity _, h => by
    simp [Value.compare, type, ValueType.rank] at h

theorem items_eq_of_compare : ∀ {xs ys : List Value}, compareItems xs ys = .eq → xs = ys
  | [], [], _ => rfl
  | [], _ :: _, h => by simp [compareItems] at h
  | _ :: _, [], h => by simp [compareItems] at h
  | x :: xs, y :: ys, h => by
    rw [compareItems, Ordering.then_eq_eq] at h
    rw [eq_of_compare h.1, items_eq_of_compare h.2]

theorem fields_eq_of_compare :
    ∀ {fs gs : List (String × Value)}, compareFields fs gs = .eq → fs = gs
  | [], [], _ => rfl
  | [], _ :: _, h => by simp [compareFields] at h
  | _ :: _, [], h => by simp [compareFields] at h
  | (j, x) :: fs, (k, y) :: gs, h => by
    rw [compareFields, Ordering.then_eq_eq, Ordering.then_eq_eq] at h
    rw [Std.LawfulEqOrd.eq_of_compare h.1.1, eq_of_compare h.1.2, fields_eq_of_compare h.2]

end

mutual

@[simp] theorem compare_self : ∀ v : Value, Value.compare v v = .eq
  | .bool _ => by simp [Value.compare]
  | .long _ => by simp [Value.compare]
  | .string _ => by simp [Value.compare]
  | .entity _ => by simp [Value.compare, Uid.compare_eq_eq_iff]
  | .set xs => by rw [Value.compare, compareItems_self xs]
  | .record fs => by rw [Value.compare, compareFields_self fs]

@[simp] theorem compareItems_self : ∀ xs : List Value, compareItems xs xs = .eq
  | [] => by rw [compareItems]
  | x :: xs => by rw [compareItems, compare_self x, compareItems_self xs]; rfl

@[simp] theorem compareFields_self : ∀ fs : List (String × Value), compareFields fs fs = .eq
  | [] => by rw [compareFields]
  | (k, x) :: fs => by
    rw [compareFields, compare_self x, compareFields_self fs, Std.ReflOrd.compare_self]; rfl

end

theorem compare_eq_eq_iff {v w : Value} : Value.compare v w = .eq ↔ v = w :=
  ⟨eq_of_compare, fun h => h ▸ compare_self v⟩

instance : DecidableEq Value := fun v w =>
  decidable_of_iff (Value.compare v w = .eq) compare_eq_eq_iff

/-- The set of the listed values. -/
def ofItems (items : List Value) : Value := .set (Sorted.ofList Value.compare items)

/-- The record of the listed fields; of two fields with one name the later counts. -/
def ofFields (fields : List (String × Value)) : Value := .record (Fields.ofList fields)

end Value

end AccessPolicy

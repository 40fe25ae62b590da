import AccessPolicy.Proofs.Eval.Within
import AccessPolicy.Proofs.Json.Written

/-! # What JSON is a value

Decoding walks down a JSON tree but not into an object that has the key `__entity`. It succeeds if
and only if everything that it meets is admissible (`Decode.value_accepts`); under that key stands
a reference in one of its notations (`Uid.GivenBy`). What is decoded is canonical, has no record
with a special key and is read back from each of its writings, and it does not depend on the order
and repetition of the elements of arrays (`Json.Rearranged`). -/

namespace AccessPolicy

/-! ## References -/

/-- The text is a type name, `::` and a quoted id. -/
def Uid.SpelledBy (u : Uid) (text : String) : Prop :=
  ∃ ts word names raw, Tokens.ofText text = .ok ts ∧
    ts.kinds = .ident word :: (Parse.segmentKinds names ++ [.symbol .colonColon, .string raw]) ∧
    u.entityType = Parse.joinPath (word :: names) ∧ Parse.Decodes raw u.id

theorem Uid.parse_eq_ok_iff_spelledBy {u : Uid} {text : String} :
    Uid.parse text = .ok u ↔ u.SpelledBy text := by
  simp only [Uid.parse_eq_ok_iff, Parse.takes_uid_iff, Uid.SpelledBy, exists_and_left]

/-- The JSON that is a reference: a text that spells it, an object with its type and id, or an
object that holds such JSON under the key for references, whatever else it has. -/
inductive Uid.GivenBy (u : Uid) : Json → Prop where
  | text {s} (h : u.SpelledBy s) : u.GivenBy (.string s)
  | object {members} (hkey : Fields.find? members Decode.entityKey = none)
      (htype : Fields.find? members "type" = some (.string u.entityType))
      (hid : Fields.find? members "id" = some (.string u.id)) : u.GivenBy (.object members)
  | enclosed {members j} (hkey : Fields.find? members Decode.entityKey = some j)
      (h : u.GivenBy j) : u.GivenBy (.object members)

namespace Decode

theorem uidText_eq_ok_iff {u : Uid} {text : String} :
    uidText text = .ok u ↔ u.SpelledBy text := by
  rw [← Uid.parse_eq_ok_iff_spelledBy, uidText]
  cases Uid.parse text with
  | ok v => simp
  | error e => simp

theorem stringField?_eq_some_iff {members : List (String × Json)} {key s : String} :
    stringField? members key = some s ↔ Fields.find? members key = some (.string s) := by
  unfold stringField?
  split <;> simp_all

theorem sizeOf_lt_of_find? {members : List (String × Json)} {key : String} {j : Json}
    (h : Fields.find? members key = some j) : sizeOf j < sizeOf (Json.object members) := by
  have hlt : sizeOf j < sizeOf members :=
    sizeOf_lt_of_mem_map_snd (List.mem_map_of_mem (Fields.mem_of_find? h))
  rw [Json.object.sizeOf_spec]
  omega

theorem givenBy_of_uid {u : Uid} {j : Json} (h : uid j = .ok u) : u.GivenBy j := by
  cases j with
  | string text => exact .text (uidText_eq_ok_iff.1 h)
  | object members =>
    cases hkey : Fields.find? members entityKey with
    | some k =>
      have hlt := sizeOf_lt_of_find? hkey
      rw [uid_enclosed hkey] at h
      exact .enclosed hkey (givenBy_of_uid h)
    | none =>
      rw [uid, wrappedUid?_eq, hkey] at h
      cases htype : stringField? members "type" with
      | none => simp [htype] at h
      | some entityType =>
        cases hid : stringField? members "id" with
        | none => simp [htype, hid] at h
        | some id =>
          simp only [Option.map_none, htype, hid, Except.ok.injEq] at h
          subst h
          exact .object hkey (stringField?_eq_some_iff.1 htype) (stringField?_eq_some_iff.1 hid)
  | _ => simp [uid] at h
termination_by sizeOf j

theorem uid_eq_ok_iff {u : Uid} {j : Json} : uid j = .ok u ↔ u.GivenBy j := by
  refine ⟨givenBy_of_uid, fun h => ?_⟩
  induction h with
  | text h => exact uidText_eq_ok_iff.2 h
  | object hkey htype hid => exact uid_object hkey htype hid
  | enclosed hkey _ ih => exact (uid_enclosed hkey).trans ih

end Decode

/-! ## Admissible trees -/

namespace Json

/-- The JSON that decoding goes on to: the elements of an array, and the members of an object that
has no key for references. -/
def inside : Json → List Json
  | .array items => items
  | .object members =>
    match Fields.find? members Decode.entityKey with
    | some _ => []
    | none => members.map Prod.snd
  | _ => []

/-- The property holds of the tree and of all that decoding goes on to. -/
inductive Everywhere (p : Json → Prop) : Json → Prop where
  | intro {j} (h : p j) (hinside : ∀ k ∈ j.inside, Everywhere p k) : Everywhere p j

theorem everywhere_iff {p : Json → Prop} {j : Json} :
    j.Everywhere p ↔ p j ∧ ∀ k ∈ j.inside, k.Everywhere p := by
  refine ⟨fun h => ?_, fun h => .intro h.1 h.2⟩
  obtain ⟨h, hinside⟩ := h
  exact ⟨h, hinside⟩

/-- There is no `null`, each number is a long, each object with the key for references has one
under it, and no other object has the key for extensions. -/
def Admissible : Json → Prop
  | .null => False
  | .number (.integer n) => InLongRange n
  | .number (.float _ _) => False
  | .object members =>
    match Fields.find? members Decode.entityKey with
    | some j => ∃ u : Uid, u.GivenBy j
    | none => Fields.find? members Decode.extensionKey = none
  | _ => True

theorem sizeOf_lt_of_mem_inside {j k : Json} (h : k ∈ j.inside) : sizeOf k < sizeOf j := by
  cases j with
  | array items =>
    have hlt : sizeOf k < sizeOf items := List.sizeOf_lt_of_mem h
    rw [array.sizeOf_spec]
    omega
  | object members =>
    rw [inside] at h
    split at h
    · cases h
    · have hlt : sizeOf k < sizeOf members := sizeOf_lt_of_mem_map_snd h
      rw [object.sizeOf_spec]
      omega
  | _ => cases h

end Json

/-! ## One step -/

namespace Decode

/-- An array is the set of what its elements are. -/
theorem value_array_eq_ok_iff {items : List Json} {v : Value} :
    value (.array items) = .ok v ↔ ∃ ws, v = .set ws ∧ Sorted.Increasing Value.compare ws ∧
      (∀ j ∈ items, ∃ w, value j = .ok w) ∧ ∀ w, w ∈ ws ↔ ∃ j ∈ items, value j = .ok w := by
  rw [value, values_eq_mapM]
  exact mapM_ofItems_eq_ok_iff

/-- An array whose elements go with those of another one is the same set, if all that an element
can be is what the elements that go with it are. -/
theorem value_array_of_pairs {items items' : List Json} {pairs : List (Json × Json)}
    (hitems : ∀ j, j ∈ items ↔ j ∈ pairs.map Prod.fst)
    (hitems' : ∀ j, j ∈ items' ↔ j ∈ pairs.map Prod.snd)
    (h : ∀ p ∈ pairs, ∀ {w}, value p.1 = .ok w → value p.2 = .ok w) {v : Value}
    (hv : value (.array items) = .ok v) : value (.array items') = .ok v := by
  obtain ⟨ws, rfl, hws, hall, hmem⟩ := value_array_eq_ok_iff.1 hv
  have hpair : ∀ p ∈ pairs, ∃ w, value p.1 = .ok w ∧ value p.2 = .ok w := by
    intro p hp
    obtain ⟨w, hw⟩ := hall p.1 ((hitems p.1).2 (List.mem_map_of_mem hp))
    exact ⟨w, hw, h p hp hw⟩
  refine value_array_eq_ok_iff.2 ⟨ws, rfl, hws, fun k hk => ?_, fun w => ?_⟩
  · obtain ⟨p, hp, rfl⟩ := List.mem_map.1 ((hitems' k).1 hk)
    obtain ⟨w, -, hw⟩ := hpair p hp
    exact ⟨w, hw⟩
  · rw [hmem]
    constructor
    · rintro ⟨j, hj, hw⟩
      obtain ⟨p, hp, rfl⟩ := List.mem_map.1 ((hitems j).1 hj)
      exact ⟨p.2, (hitems' p.2).2 (List.mem_map_of_mem hp), h p hp hw⟩
    · rintro ⟨k, hk, hw⟩
      obtain ⟨p, hp, rfl⟩ := List.mem_map.1 ((hitems' k).1 hk)
      obtain ⟨w', hleft, hright⟩ := hpair p hp
      obtain rfl := Except.ok.inj (hw.symm.trans hright)
      exact ⟨p.1, (hitems p.1).2 (List.mem_map_of_mem hp), hleft⟩

theorem value_reference {members : List (String × Json)} {j : Json}
    (h : Fields.find? members entityKey = some j) {v : Value} :
    value (.object members) = .ok v ↔ ∃ u : Uid, u.GivenBy j ∧ .entity u = v := by
  rw [value, h]
  simp only [Parse.map_eq_ok_iff, uid_eq_ok_iff]

theorem value_object {members : List (String × Json)}
    (h : Fields.find? members entityKey = none) {v : Value} :
    value (.object members) = .ok v ↔ Fields.find? members extensionKey = none ∧
      ∃ fs, members.mapM field = .ok fs ∧ Value.ofFields fs = v := by
  rw [value, h, ← fields_eq_mapM]
  cases hkey : Fields.find? members extensionKey with
  | some j => simp
  | none => simp [Parse.bind_eq_ok_iff]

theorem exists_field_iff {m : String × Json} :
    (∃ f, field m = .ok f) ↔ ∃ v, value m.2 = .ok v := by
  simp [field_eq_ok_iff]

/-- Decoding succeeds if and only if the tree is admissible and all inside it is decoded. -/
theorem exists_value_iff_inside (j : Json) :
    (∃ v, value j = .ok v) ↔ j.Admissible ∧ ∀ k ∈ j.inside, ∃ v, value k = .ok v := by
  cases j with
  | null => simp [value, Json.Admissible]
  | bool b => simp [value, Json.Admissible, Json.inside]
  | string s => simp [value, Json.Admissible, Json.inside]
  | number n =>
    cases n with
    | integer n => by_cases h : InLongRange n <;> simp [value, Json.Admissible, Json.inside, h]
    | float negative x => simp [value, Json.Admissible]
  | array items =>
    simp [value, Parse.bind_eq_ok_iff, values_eq_mapM, exists_mapM_eq_ok_iff, Json.Admissible,
      Json.inside]
  | object members =>
    cases hkey : Fields.find? members entityKey with
    | some k => simp [value_reference hkey, Json.Admissible, Json.inside, hkey]
    | none =>
      have hfields : (∃ fs, members.mapM field = .ok fs) ↔ ∀ m ∈ members, ∃ v, value m.2 = .ok v :=
        exists_mapM_eq_ok_iff.trans (forall₂_congr fun _ _ => exists_field_iff)
      simp only [value_object hkey, Json.Admissible, Json.inside, hkey, exists_and_left,
        List.forall_mem_map, ← hfields]
      simp

/-- What is decoded is in order, has no special keys, and its parts are decoded from what is
inside. -/
theorem value_step {j : Json} {v : Value} (h : value j = .ok v) :
    v.Ordered ∧ v.FreeOfKeys ∧ ∀ w ∈ v.parts, ∃ k ∈ j.inside, value k = .ok w := by
  cases j with
  | null => cases h
  | bool b | string s =>
    cases h
    exact ⟨trivial, trivial, List.forall_mem_nil _⟩
  | number n =>
    cases n with
    | float negative x => cases h
    | integer n =>
      rw [value] at h
      split at h
      · cases h
        exact ⟨‹InLongRange n›, trivial, List.forall_mem_nil _⟩
      · cases h
  | array items =>
    obtain ⟨ws, rfl, hws, -, hmem⟩ := value_array_eq_ok_iff.1 h
    exact ⟨hws, trivial, fun w hw => (hmem w).1 hw⟩
  | object members =>
    cases hkey : Fields.find? members entityKey with
    | some k =>
      obtain ⟨u, -, rfl⟩ := (value_reference hkey).1 h
      exact ⟨trivial, trivial, List.forall_mem_nil _⟩
    | none =>
      obtain ⟨hextension, fs, hfs, rfl⟩ := (value_object hkey).1 h
      have hmember : ∀ f ∈ Fields.ofList fs, ∃ m ∈ members, m.1 = f.1 ∧ value m.2 = .ok f.2 := by
        intro f hf
        obtain ⟨m, hm, hmf⟩ := (mem_iff_of_mapM_eq_ok hfs).1 (Fields.mem_of_mem_ofList hf)
        exact ⟨m, hm, field_eq_ok_iff.1 hmf⟩
      refine ⟨Fields.increasing_ofList fs, fun f hf => ?_, fun w hw => ?_⟩
      · obtain ⟨m, hm, hname, -⟩ := hmember f hf
        rw [← hname]
        exact ⟨Fields.ne_of_find?_eq_none hkey hm, Fields.ne_of_find?_eq_none hextension hm⟩
      · obtain ⟨f, hf, rfl⟩ := List.mem_map.1 hw
        obtain ⟨m, hm, -, hvalue⟩ := hmember f hf
        refine ⟨m.2, ?_, hvalue⟩
        rw [Json.inside, hkey]
        exact List.mem_map_of_mem hm

theorem exists_value_iff (j : Json) :
    (∃ v, value j = .ok v) ↔ j.Everywhere Json.Admissible := by
  rw [exists_value_iff_inside, Json.everywhere_iff]
  refine and_congr_right fun _ => forall_congr' fun k => forall_congr' fun hk => ?_
  exact exists_value_iff k
termination_by sizeOf j
decreasing_by exact Json.sizeOf_lt_of_mem_inside hk

/-- What holds of values in order without special keys holds of what is decoded and of all values
inside it. -/
theorem everywhere_of_value {p : Value → Prop} (hp : ∀ v : Value, v.Ordered → v.FreeOfKeys → p v)
    {j : Json} {v : Value} (h : value j = .ok v) : v.Everywhere p := by
  obtain ⟨hordered, hfree, hparts⟩ := value_step h
  refine .intro (hp v hordered hfree) fun w hw => ?_
  obtain ⟨k, hk, hvalue⟩ := hparts w hw
  exact everywhere_of_value hp hvalue
termination_by sizeOf j
decreasing_by exact Json.sizeOf_lt_of_mem_inside hk

theorem canonical_of_value {j : Json} {v : Value} (h : value j = .ok v) : v.Canonical :=
  everywhere_of_value (fun _ hordered _ => hordered) h

theorem plain_of_value {j : Json} {v : Value} (h : value j = .ok v) : v.Plain :=
  everywhere_of_value (fun _ _ hfree => hfree) h

end Decode

/-! ## Trees with other listings of their arrays -/

namespace Json

/-- The trees differ in the order and repetition of the elements of arrays only: two arrays have
elements that go with each other, none left out, and two objects have the same keys. -/
inductive Rearranged : Json → Json → Prop where
  | refl (j) : Rearranged j j
  | array {items items'} (pairs : List (Json × Json)) (h : ∀ p ∈ pairs, Rearranged p.1 p.2)
      (hitems : ∀ j, j ∈ items ↔ j ∈ pairs.map Prod.fst)
      (hitems' : ∀ j, j ∈ items' ↔ j ∈ pairs.map Prod.snd) :
      Rearranged (.array items) (.array items')
  | object (pairs : List (String × Json × Json)) (h : ∀ p ∈ pairs, Rearranged p.2.1 p.2.2) :
      Rearranged (.object (pairs.map fun p => (p.1, p.2.1)))
        (.object (pairs.map fun p => (p.1, p.2.2)))

namespace Rearranged

theorem symm {j k : Json} (h : j.Rearranged k) : k.Rearranged j := by
  induction h with
  | refl j => exact .refl j
  | array pairs _ hitems hitems' ih =>
    refine .array (pairs.map Prod.swap) (List.forall_mem_map.2 ih) ?_ ?_
    · simpa [Function.comp_def] using hitems'
    · simpa [Function.comp_def] using hitems
  | object pairs _ ih =>
    have hobject := object (pairs.map fun p => (p.1, p.2.swap)) (List.forall_mem_map.2 ih)
    simpa [Function.comp_def] using hobject

/-- Arrays with the same elements. -/
theorem of_mem_iff {items items' : List Json} (h : ∀ j, j ∈ items ↔ j ∈ items') :
    Rearranged (.array items) (.array items') := by
  refine .array (items.map fun j => (j, j)) ?_ ?_ ?_
  · exact List.forall_mem_map.2 fun j _ => .refl j
  · simp [Function.comp_def]
  · simp [Function.comp_def, h]

/-- Of two objects the members with one name go with each other. -/
theorem find? {pairs : List (String × Json × Json)} (h : ∀ p ∈ pairs, p.2.1.Rearranged p.2.2)
    {key : String} {j : Json} (hj : Fields.find? (pairs.map fun p => (p.1, p.2.1)) key = some j) :
    ∃ k, Fields.find? (pairs.map fun p => (p.1, p.2.2)) key = some k ∧ j.Rearranged k := by
  rw [Fields.find?_map Prod.fst] at hj
  obtain ⟨p, hp, rfl⟩ := Option.map_eq_some_iff.1 hj
  exact ⟨p.2, by rw [Fields.find?_map Prod.snd, hp, Option.map_some], h _ (Fields.mem_of_find? hp)⟩

theorem find?_eq_none {pairs : List (String × Json × Json)} {key : String}
    (hj : Fields.find? (pairs.map fun p => (p.1, p.2.1)) key = none) :
    Fields.find? (pairs.map fun p => (p.1, p.2.2)) key = none := by
  rw [Fields.find?_map Prod.fst, Option.map_eq_none_iff] at hj
  rw [Fields.find?_map Prod.snd, hj, Option.map_none]

theorem find?_string {pairs : List (String × Json × Json)}
    (h : ∀ p ∈ pairs, p.2.1.Rearranged p.2.2) {key s : String}
    (hj : Fields.find? (pairs.map fun p => (p.1, p.2.1)) key = some (.string s)) :
    Fields.find? (pairs.map fun p => (p.1, p.2.2)) key = some (.string s) := by
  obtain ⟨k, hk, hstring⟩ := find? h hj
  cases hstring
  exact hk

theorem givenBy {u : Uid} {j k : Json} (h : j.Rearranged k) (hj : u.GivenBy j) : u.GivenBy k := by
  -- By induction on the notation: a reference is held by one member, and the others may be
  -- anything.
  induction hj generalizing k with
  | text hs =>
    cases h
    exact .text hs
  | object hkey htype hid =>
    cases h with
    | refl => exact .object hkey htype hid
    | object pairs h =>
      exact .object (find?_eq_none hkey) (find?_string h htype) (find?_string h hid)
  | enclosed hkey hj ih =>
    cases h with
    | refl => exact .enclosed hkey hj
    | object pairs h =>
      obtain ⟨k, hk, hrearranged⟩ := find? h hkey
      exact .enclosed hk (ih hrearranged)

theorem value {j k : Json} (h : j.Rearranged k) {v : Value} (hj : Decode.value j = .ok v) :
    Decode.value k = .ok v := by
  induction h generalizing v with
  | refl j => exact hj
  | array pairs _ hitems hitems' ih => exact Decode.value_array_of_pairs hitems hitems' ih hj
  | object pairs h ih =>
    cases hkey : Fields.find? (pairs.map fun p => (p.1, p.2.1)) Decode.entityKey with
    | some r =>
      obtain ⟨r', hr', hrearranged⟩ := find? h hkey
      obtain ⟨u, hu, rfl⟩ := (Decode.value_reference hkey).1 hj
      exact (Decode.value_reference hr').2 ⟨u, hrearranged.givenBy hu, rfl⟩
    | none =>
      obtain ⟨hextension, fs, hfs, rfl⟩ := (Decode.value_object hkey).1 hj
      refine (Decode.value_object (find?_eq_none hkey)).2
        ⟨find?_eq_none hextension, fs, ?_, rfl⟩
      rw [List.mapM_map] at hfs ⊢
      refine mapM_eq_ok_of_forall (fun p hp f hf => ?_) hfs
      obtain ⟨hname, hvalue⟩ := Decode.field_eq_ok_iff.1 hf
      exact Decode.field_eq_ok_iff.2 ⟨hname, ih p hp hvalue⟩

end Rearranged

end Json

/-! ## The format -/

namespace Decode

/-- **Decoding accepts exactly its format.** A tree is a value if and only if all that decoding
meets is admissible. The value is canonical, has no special keys inside and is read back from its
encoding and from each other writing of it. Trees that differ in the listings of their arrays only
are the same value, or none of them is one. -/
theorem value_accepts (j : Json) :
    ((∃ v, value j = .ok v) ↔ j.Everywhere Json.Admissible) ∧
    (∀ v, value j = .ok v → v.Canonical ∧ v.Plain ∧ value v.json = .ok v ∧
      ∀ k, v.WrittenAs k → value k = .ok v) ∧
    ∀ k, j.Rearranged k → ∀ v, value j = .ok v ↔ value k = .ok v := by
  refine ⟨exists_value_iff j, fun v hv => ?_, fun k hk v => ⟨hk.value, hk.symm.value⟩⟩
  have hcanonical := canonical_of_value hv
  have hplain := plain_of_value hv
  exact ⟨hcanonical, hplain, v.writtenAs_json.decode hcanonical hplain, fun k hk =>
    hk.decode hcanonical hplain⟩

/-- A reference with a key for extensions beside it, an array that is listed twice, and an object
for an extension inside an array. -/
theorem value_accepts_owner :
    let owner : Json := .object [("__entity", .string "User::\"a\""), ("__extn", .null)]
    let one : Json := .number (.integer 1)
    let two : Json := .number (.integer 2)
    let file (tags : List Json) : Json := .object [("owner", owner), ("tags", .array tags)]
    let v : Value := .record [("owner", .entity ⟨"User", "a"⟩), ("tags", .set [.long 1, .long 2])]
    value (file [two, one, two]) = .ok v ∧ value (file [one, two]) = .ok v ∧
      value v.json = .ok v ∧ ¬ ∃ w, value (.array [.object [("__extn", owner)]]) = .ok w := by
  intro owner one two file v
  have hvalue : value (file [two, one, two]) = .ok v := by with_unfolding_all rfl
  obtain ⟨-, hback, hrearranged⟩ := value_accepts (file [two, one, two])
  have htags : ∀ p ∈ [("owner", owner, owner), ("tags", .array [two, one, two], .array [one, two])],
      p.2.1.Rearranged p.2.2 := by
    refine List.forall_mem_cons.2 ⟨.refl owner, List.forall_mem_singleton.2 (.of_mem_iff ?_)⟩
    simp
  refine ⟨hvalue, (hrearranged _ (.object _ htags) v).1 hvalue, (hback v hvalue).2.2.1, ?_⟩
  rw [(value_accepts _).1]
  intro h
  obtain ⟨-, hinside⟩ := Json.everywhere_iff.1 h
  obtain ⟨hextension, -⟩ := Json.everywhere_iff.1 (hinside _ List.mem_cons_self)
  cases hextension

end Decode

end AccessPolicy

import AccessPolicy.Proofs.Traverse
import AccessPolicy.Proofs.Uid.Notations
import AccessPolicy.Proofs.Value.Canonical
import AccessPolicy.Proofs.Value.Order

/-! # Entities are read back from every writing in JSON

JSON leaves choices to whoever writes an entity: each reference has three notations, elements of
sets and parents stand in any order and may be repeated, members of objects stand in any order,
and attributes or parents that are not there may be left out. `WrittenAs` allows them all, and
decoding gives the entity back whichever were made (`Entity.listOfJsonText_writtenAs`).

Inside a value the keys `__entity` and `__extn` have a meaning of their own, so a record that is
read back has no such field. The names of attributes are free. -/

namespace AccessPolicy

/-! ## Values -/

namespace Value

/-- A name and a value with its writing, as a field. -/
def fieldOf (l : String × Value × Json) : String × Value := (l.1, l.2.1)

/-- A name and a value with its writing, as a member of an object. -/
def memberOf (l : String × Value × Json) : String × Json := (l.1, l.2.2)

/-- The ways to write a value: the elements of a set in any order, each at least once, the fields
of a record in any order, and a reference under the key for references. -/
inductive WrittenAs : Value → Json → Prop where
  | bool (b : Bool) : WrittenAs (.bool b) (.bool b)
  | long (n : Int) : WrittenAs (.long n) (.number (.integer n))
  | string (s : String) : WrittenAs (.string s) (.string s)
  | set {items} (listed : List (Value × Json)) (h : ∀ l ∈ listed, WrittenAs l.1 l.2)
      (hitems : ∀ v, v ∈ listed.map Prod.fst ↔ v ∈ items) :
      WrittenAs (.set items) (.array (listed.map Prod.snd))
  | record {fields} (listed : List (String × Value × Json))
      (h : ∀ l ∈ listed, WrittenAs l.2.1 l.2.2) (hfields : (listed.map fieldOf).Perm fields) :
      WrittenAs (.record fields) (.object (listed.map memberOf))
  | entity {u members j} (hkey : Fields.find? members Decode.entityKey = some j)
      (h : u.WrittenAs j) : WrittenAs (.entity u) (.object members)

/-- No field of the record has a name with a meaning of its own. -/
def FreeOfKeys : Value → Prop
  | .record fields => ∀ f ∈ fields, f.1 ≠ Decode.entityKey ∧ f.1 ≠ Decode.extensionKey
  | _ => True

/-- No record inside the value, at any depth, has a field whose name has a meaning of its own. -/
def Plain (v : Value) : Prop := v.Everywhere FreeOfKeys

end Value

namespace Decode

theorem values_eq_mapM (items : List Json) : values items = items.mapM value := by
  induction items with
  | nil => rfl
  | cons j items ih =>
    rw [values, List.mapM_cons, ih]
    rfl

/-- The field of a record that a member of an object is. -/
def field (m : String × Json) : Except DecodeError (String × Value) := (value m.2).map (m.1, ·)

theorem field_eq_ok_iff {m : String × Json} {f : String × Value} :
    field m = .ok f ↔ m.1 = f.1 ∧ value m.2 = .ok f.2 := by
  rw [field, Parse.map_eq_ok_iff]
  constructor
  · rintro ⟨v, hv, rfl⟩
    exact ⟨rfl, hv⟩
  · rintro ⟨hname, hv⟩
    exact ⟨f.2, hv, Prod.ext hname rfl⟩

theorem fields_eq_mapM (members : List (String × Json)) :
    fields members = members.mapM field := by
  induction members with
  | nil => rfl
  | cons m members ih =>
    rw [fields, List.mapM_cons, ih, field]
    cases value m.2 <;> rfl

theorem values_of_forall {listed : List (Value × Json)} (h : ∀ l ∈ listed, value l.2 = .ok l.1) :
    values (listed.map Prod.snd) = .ok (listed.map Prod.fst) := by
  rw [values_eq_mapM]
  exact mapM_map_eq_ok h

theorem fields_of_forall {listed : List (String × Value × Json)}
    (h : ∀ l ∈ listed, value l.2.2 = .ok l.2.1) :
    fields (listed.map Value.memberOf) = .ok (listed.map Value.fieldOf) := by
  rw [fields_eq_mapM]
  exact mapM_map_eq_ok fun l hl => field_eq_ok_iff.2 ⟨rfl, h l hl⟩

/-- A name that no listed field has is the name of no member. -/
theorem find?_memberOf_eq_none {listed : List (String × Value × Json)}
    {fields : List (String × Value)} (hfields : (listed.map Value.fieldOf).Perm fields)
    {key : String} (h : ∀ f ∈ fields, f.1 ≠ key) :
    Fields.find? (listed.map Value.memberOf) key = none := by
  rw [Fields.find?, List.lookup_eq_none_iff]
  intro m hm
  obtain ⟨l, hl, rfl⟩ := List.mem_map.1 hm
  have hne : l.1 ≠ key := h (Value.fieldOf l) (hfields.subset (List.mem_map_of_mem hl))
  simpa [Value.memberOf] using hne.symm

theorem value_record {members : List (String × Json)} {fs : List (String × Value)}
    (hentity : Fields.find? members entityKey = none)
    (hextension : Fields.find? members extensionKey = none) (h : fields members = .ok fs) :
    value (.object members) = .ok (Value.ofFields fs) := by
  rw [value, hentity, hextension, h]
  rfl

end Decode

/-- **A value is read back from every writing of it.** -/
theorem Value.WrittenAs.decode {v : Value} {j : Json} (h : v.WrittenAs j) (hc : v.Canonical)
    (hp : v.Plain) : Decode.value j = .ok v := by
  induction h with
  | bool b => rfl
  | long n => exact if_pos (show InLongRange n from hc.here)
  | string s => rfl
  | @set items listed _ hitems ih =>
    have hlisted : ∀ l ∈ listed, Decode.value l.2 = .ok l.1 := by
      intro l hl
      have hmem : l.1 ∈ (Value.set items).parts := (hitems l.1).1 (List.mem_map_of_mem hl)
      exact ih l hl (hc.inside l.1 hmem) (hp.inside l.1 hmem)
    rw [Decode.value, Decode.values_of_forall hlisted]
    exact congrArg (Except.ok ∘ Value.set) (Sorted.ofList_eq_of_mem_iff hc.here hitems)
  | @record fields listed _ hfields ih =>
    have hlisted : ∀ l ∈ listed, Decode.value l.2.2 = .ok l.2.1 := by
      intro l hl
      have hfield : Value.fieldOf l ∈ fields := hfields.subset (List.mem_map_of_mem hl)
      have hmem : l.2.1 ∈ (Value.record fields).parts := List.mem_map_of_mem hfield
      exact ih l hl (hc.inside l.2.1 hmem) (hp.inside l.2.1 hmem)
    have hfree : ∀ f ∈ fields, f.1 ≠ Decode.entityKey ∧ f.1 ≠ Decode.extensionKey := hp.here
    rw [Decode.value_record (Decode.find?_memberOf_eq_none hfields fun f hf => (hfree f hf).1)
      (Decode.find?_memberOf_eq_none hfields fun f hf => (hfree f hf).2)
      (Decode.fields_of_forall hlisted)]
    exact congrArg (Except.ok ∘ Value.record) (Fields.ofList_of_perm hfields hc.here)
  | entity hkey h => rw [Decode.value, hkey]; exact congrArg (Except.map _) h.decode

/-! ## Fields whose names are free -/

/-- The members of an object list these fields, in any order, with writings of their values. -/
def FieldsWrittenAs (fields : List (String × Value)) (members : List (String × Json)) : Prop :=
  ∃ listed : List (String × Value × Json), (∀ l ∈ listed, l.2.1.WrittenAs l.2.2) ∧
    (listed.map Value.fieldOf).Perm fields ∧ listed.map Value.memberOf = members

/-- Fields in order of their names, with canonical values that have no special keys inside. -/
structure FieldsReadable (fields : List (String × Value)) : Prop where
  increasing : Fields.Increasing fields
  canonical : ∀ f ∈ fields, f.2.Canonical
  plain : ∀ f ∈ fields, f.2.Plain

theorem FieldsWrittenAs.decode {fields : List (String × Value)} {members : List (String × Json)}
    (h : FieldsWrittenAs fields members) (hr : FieldsReadable fields) :
    Decode.record members = .ok fields := by
  obtain ⟨listed, hwritten, hfields, rfl⟩ := h
  have hlisted : ∀ l ∈ listed, Decode.value l.2.2 = .ok l.2.1 := by
    intro l hl
    have hfield : Value.fieldOf l ∈ fields := hfields.subset (List.mem_map_of_mem hl)
    exact (hwritten l hl).decode (hr.canonical _ hfield) (hr.plain _ hfield)
  rw [Decode.record, Decode.fields_of_forall hlisted]
  exact congrArg Except.ok (Fields.ofList_of_perm hfields hr.increasing)

/-! ## Entities -/

/-- The ways to write attributes: as an object, and no attributes also as `null` or left out. -/
inductive AttrsWrittenAs : List (String × Value) → Option Json → Prop where
  | absent : AttrsWrittenAs [] none
  | null : AttrsWrittenAs [] (some .null)
  | object {attrs members} (h : FieldsWrittenAs attrs members) :
    AttrsWrittenAs attrs (some (.object members))

/-- The ways to write parents: as an array in any order, each at least once, and no parents also
as `null` or left out. -/
inductive ParentsWrittenAs : List Uid → Option Json → Prop where
  | absent : ParentsWrittenAs [] none
  | null : ParentsWrittenAs [] (some .null)
  | array {parents} (listed : List (Uid × Json)) (h : ∀ l ∈ listed, l.1.WrittenAs l.2)
      (hparents : ∀ u, u ∈ listed.map Prod.fst ↔ u ∈ parents) :
      ParentsWrittenAs parents (some (.array (listed.map Prod.snd)))

theorem AttrsWrittenAs.decode {attrs : List (String × Value)} {j : Option Json}
    (h : AttrsWrittenAs attrs j) (hr : FieldsReadable attrs) (u : Uid) :
    Decode.attrs u j = .ok attrs := by
  cases h with
  | absent => rfl
  | null => rfl
  | object h => exact h.decode hr

/-- The parents that are read are those that were written, in the order of the writing. -/
theorem ParentsWrittenAs.decode {parents : List Uid} {j : Option Json}
    (h : ParentsWrittenAs parents j) (u : Uid) :
    ∃ us, Decode.parents u j = .ok us ∧ ∀ v, v ∈ us ↔ v ∈ parents := by
  cases h with
  | absent => exact ⟨[], rfl, fun v => Iff.rfl⟩
  | null => exact ⟨[], rfl, fun v => Iff.rfl⟩
  | array listed h hparents =>
    refine ⟨listed.map Prod.fst, ?_, hparents⟩
    rw [Decode.parents]
    exact mapM_map_eq_ok fun l hl => (h l hl).decode

namespace Entity

/-- The ways to write an entity. -/
inductive WrittenAs (e : Entity) : Json → Prop where
  | object {members j} (hkey : Fields.find? members "uid" = some j) (huid : e.uid.WrittenAs j)
      (hattrs : AttrsWrittenAs e.attrs (Fields.find? members "attrs"))
      (hparents : ParentsWrittenAs e.parents (Fields.find? members "parents")) :
      e.WrittenAs (.object members)

/-- Attributes and parents are in order, and values canonical without special keys inside. -/
structure Readable (e : Entity) : Prop where
  attrs : FieldsReadable e.attrs
  parents : Sorted.Increasing Uid.compare e.parents

theorem WrittenAs.decode {e : Entity} {j : Json} (h : e.WrittenAs j) (hr : e.Readable) :
    Decode.entity j = .ok e := by
  obtain ⟨hkey, huid, hattrs, hparents⟩ := h
  obtain ⟨parents, hdecode, hmem⟩ := hparents.decode e.uid
  rw [Decode.entity, hkey]
  refine Parse.bind_eq_ok_iff.2 ⟨e.uid, huid.decode, Parse.bind_eq_ok_iff.2 ⟨e.attrs,
    hattrs.decode hr.attrs e.uid, Parse.bind_eq_ok_iff.2 ⟨parents, hdecode, ?_⟩⟩⟩
  rw [ofParts, Fields.ofList_of_increasing hr.attrs.increasing,
    Sorted.ofList_eq_of_mem_iff hr.parents hmem]

theorem decode_list {es : List Entity} {js : List Json} (hr : ∀ e ∈ es, e.Readable)
    (h : List.Forall₂ WrittenAs es js) : Decode.entities (.array js) = .ok es := by
  rw [Decode.entities]
  induction h with
  | nil => rfl
  | cons hj _ ih =>
    obtain ⟨he, hes⟩ := List.forall_mem_cons.1 hr
    rw [List.mapM_cons, hj.decode he, ih hes]
    rfl

end Entity

/-! ## A writing of every entity -/

def Uid.json (u : Uid) : Json := .object [("type", .string u.entityType), ("id", .string u.id)]

theorem Uid.writtenAs_json (u : Uid) : u.WrittenAs u.json := .object rfl rfl rfl

namespace Value

mutual

/-- The writing with references as objects and everything else in its order. -/
def json : Value → Json
  | .bool b => .bool b
  | .long n => .number (.integer n)
  | .string s => .string s
  | .set items => .array ((listItems items).map Prod.snd)
  | .record fields => .object ((listFields fields).map memberOf)
  | .entity u => .object [(Decode.entityKey, u.json)]

def listItems : List Value → List (Value × Json)
  | [] => []
  | v :: vs => (v, v.json) :: listItems vs

def listFields : List (String × Value) → List (String × Value × Json)
  | [] => []
  | (k, v) :: fs => (k, v, v.json) :: listFields fs

end

theorem map_fst_listItems (vs : List Value) : (listItems vs).map Prod.fst = vs := by
  induction vs with
  | nil => rfl
  | cons v vs ih => rw [listItems, List.map_cons, ih]

theorem map_fieldOf_listFields (fs : List (String × Value)) :
    (listFields fs).map fieldOf = fs := by
  induction fs with
  | nil => rfl
  | cons f fs ih => rw [listFields, List.map_cons, ih, fieldOf]

mutual

theorem writtenAs_json : ∀ v : Value, v.WrittenAs v.json
  | .bool b => .bool b
  | .long n => .long n
  | .string s => .string s
  | .set items => .set (listItems items) (listItems_writtenAs items) fun v => by
      rw [map_fst_listItems]
  | .record fields => .record (listFields fields) (listFields_writtenAs fields) (by
      rw [map_fieldOf_listFields])
  | .entity u => .entity rfl u.writtenAs_json

theorem listItems_writtenAs : ∀ vs : List Value, ∀ l ∈ listItems vs, l.1.WrittenAs l.2
  | [] => fun _ hl => absurd hl List.not_mem_nil
  | v :: vs => List.forall_mem_cons.2 ⟨writtenAs_json v, listItems_writtenAs vs⟩

theorem listFields_writtenAs :
    ∀ fs : List (String × Value), ∀ l ∈ listFields fs, l.2.1.WrittenAs l.2.2
  | [] => fun _ hl => absurd hl List.not_mem_nil
  | (_, v) :: fs => List.forall_mem_cons.2 ⟨writtenAs_json v, listFields_writtenAs fs⟩

end

theorem fieldsWrittenAs_json (fs : List (String × Value)) :
    FieldsWrittenAs fs ((listFields fs).map memberOf) :=
  ⟨listFields fs, listFields_writtenAs fs, .of_eq (map_fieldOf_listFields fs), rfl⟩

end Value

namespace Entity

def json (e : Entity) : Json :=
  .object [("uid", e.uid.json), ("attrs", .object ((Value.listFields e.attrs).map Value.memberOf)),
    ("parents", .array (e.parents.map Uid.json))]

theorem writtenAs_json (e : Entity) : e.WrittenAs e.json := by
  have hparents : ParentsWrittenAs e.parents
      (some (.array ((e.parents.map fun u => (u, u.json)).map Prod.snd))) := by
    refine .array _ (fun l hl => ?_) fun u => by simp
    obtain ⟨u, -, rfl⟩ := List.mem_map.1 hl
    exact u.writtenAs_json
  rw [List.map_map] at hparents
  exact .object rfl e.uid.writtenAs_json (.object (Value.fieldsWrittenAs_json e.attrs)) hparents

/-- **Decoding undoes encoding.** Entities come back from a JSON text of any writings of them, in
their order, if their attributes are in order and no record inside a value has a field with a
special name. There is a writing of every entity. -/
theorem listOfJsonText_writtenAs :
    (∀ e : Entity, e.WrittenAs e.json) ∧
    ∀ (es : List Entity) (js : List Json) (text : String), (∀ e ∈ es, e.Readable) →
      List.Forall₂ WrittenAs es js → Json.parse? text = some (.array js) →
      listOfJsonText text = .ok es := by
  refine ⟨writtenAs_json, fun es js text hr h htext => ?_⟩
  rw [listOfJsonText, Decode.text, htext]
  exact decode_list hr h

/-- A set out of order and with a repetition, under a name that is special only inside values, and
one parent in two of its notations. -/
theorem listOfJsonText_writtenAs_user :
    listOfJsonText ("[\x7b\"uid\":\"User::\\\"a\\\"\",\"attrs\":\x7b\"__entity\":[2,1,2]\x7d," ++
      "\"parents\":[\x7b\"__entity\":\x7b\"type\":\"Group\",\"id\":\"g\"\x7d\x7d," ++
      "\"Group::\\\"g\\\"\"]\x7d]") =
      .ok [⟨⟨"User", "a"⟩, [("__entity", .set [.long 1, .long 2])], [⟨"Group", "g"⟩]⟩] := by
  let user : Uid := ⟨"User", "a"⟩
  let group : Uid := ⟨"Group", "g"⟩
  let set : Value := .set [.long 1, .long 2]
  let long (n : Int) : Value × Json := (.long n, .number (.integer n))
  let setJson : Json := .array ([long 2, long 1, long 2].map Prod.snd)
  let groupJson : Json :=
    .object [("__entity", .object [("id", .string "g"), ("type", .string "Group")])]
  have hset : set.WrittenAs setJson := by
    refine .set _ ?_ fun v => by simp [long]; tauto
    simp only [List.forall_mem_cons]
    exact ⟨.long 2, .long 1, .long 2, by simp⟩
  have hattrs : FieldsWrittenAs [("__entity", set)] [("__entity", setJson)] :=
    ⟨[("__entity", set, setJson)], List.forall_mem_singleton.2 hset, .refl _, rfl⟩
  have huser : user.WrittenAs (.string "User::\"a\"") := by
    rw [show "User::\"a\"" = user.text by decide]
    exact .text ⟨"User", [], by decide, by decide⟩
  have hgroup : group.WrittenAs (.string "Group::\"g\"") := by
    rw [show "Group::\"g\"" = group.text by decide]
    exact .text ⟨"Group", [], by decide, by decide⟩
  have hparents : ParentsWrittenAs [group] (some (.array [groupJson, .string "Group::\"g\""])) := by
    refine .array [(group, groupJson), (group, .string "Group::\"g\"")] ?_ fun u => by simp
    simp only [List.forall_mem_cons]
    exact ⟨.enclosed rfl (.object rfl rfl rfl), hgroup, by simp⟩
  have hreadable : Readable ⟨user, [("__entity", set)], [group]⟩ := by
    refine ⟨⟨List.pairwise_singleton _ _, ?_, ?_⟩, List.pairwise_singleton _ _⟩
    · refine List.forall_mem_singleton.2 (.intro (by decide) (List.forall_mem_cons.2 ⟨?_, ?_⟩))
      · exact .leaf (by decide) rfl
      · exact List.forall_mem_singleton.2 (.leaf (by decide) rfl)
    · refine List.forall_mem_singleton.2 (.intro trivial (List.forall_mem_cons.2 ⟨?_, ?_⟩))
      · exact .leaf trivial rfl
      · exact List.forall_mem_singleton.2 (.leaf trivial rfl)
  have hwritten : WrittenAs ⟨user, [("__entity", set)], [group]⟩ (.object
      [("attrs", .object [("__entity", setJson)]),
        ("parents", .array [groupJson, .string "Group::\"g\""]), ("uid", .string "User::\"a\"")]) :=
    .object rfl huser (.object hattrs) hparents
  refine listOfJsonText_writtenAs.2 _ _ _ (List.forall_mem_singleton.2 hreadable)
    (.cons hwritten .nil) ?_
  set_option maxRecDepth 1000 in with_unfolding_all rfl

end Entity

end AccessPolicy

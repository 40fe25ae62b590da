import AccessPolicy.Proofs.Sorted
import AccessPolicy.Settings.Load

/-! # Layers that set some of the keys

A choice gives values to some of the keys of the settings. A layer sets it if its entries, tables of
sections or paths into them, are the keys of the choice with their values (`Writes`). Merging such a
layer changes these keys and no other (`Holds.putLayer`), however the layer is written and in
whatever order its entries stand. -/

namespace AccessPolicy

/-- A key of the settings with a value of its type. -/
inductive Setting where
  | threshold (n : Nat)
  | audit (b : Bool)
  | depth (n : Nat)

namespace Setting

def sectionKey : Setting → String
  | .threshold _ | .audit _ => Settings.engineKey
  | .depth _ => Settings.parserKey

def key : Setting → String
  | .threshold _ => Settings.thresholdKey
  | .audit _ => Settings.auditKey
  | .depth _ => Settings.depthKey

def item : Setting → Item
  | .threshold n | .depth n => .integer n
  | .audit b => .bool b

/-- The key behind its section. -/
def path (a : Setting) : String := a.sectionKey ++ "." ++ a.key

theorem sectionKey_mem (a : Setting) : a.sectionKey ∈ Settings.sectionKeys := by
  cases a <;> simp [sectionKey, Settings.sectionKeys]

theorem key_mem (a : Setting) : a.key ∈ Settings.engineKeys ++ Settings.parserKeys := by
  cases a <;> simp [key, Settings.engineKeys, Settings.parserKeys]

def change (s : Settings) : Setting → Settings
  | .threshold n => { s with parallelThreshold := n }
  | .audit b => { s with audit := b }
  | .depth n => { s with maxNestingDepth := n }

end Setting

/-- Values for some of the keys. -/
structure Choice where
  threshold? : Option Nat := none
  audit? : Option Bool := none
  depth? : Option Nat := none

namespace Choice

/-- What it sets in the section of the engine. -/
def engine (c : Choice) : List Setting :=
  (c.threshold?.map .threshold).toList ++ (c.audit?.map .audit).toList

/-- What it sets in the section of the parser. -/
def limits (c : Choice) : List Setting := (c.depth?.map .depth).toList

def settings (c : Choice) : List Setting := c.engine ++ c.limits

/-- The settings with the values of the choice where it has any. -/
def above (c : Choice) (s : Settings) : Settings where
  parallelThreshold := c.threshold?.getD s.parallelThreshold
  audit := c.audit?.getD s.audit
  maxNestingDepth := c.depth?.getD s.maxNestingDepth

/-- Each key with the value of the first choice that has one, or its default. -/
def first (cs : List Choice) : Settings where
  parallelThreshold := (cs.findSome? threshold?).getD ({} : Settings).parallelThreshold
  audit := (cs.findSome? audit?).getD ({} : Settings).audit
  maxNestingDepth := (cs.findSome? depth?).getD ({} : Settings).maxNestingDepth

theorem first_cons (c : Choice) (cs : List Choice) : first (c :: cs) = c.above (first cs) := by
  obtain ⟨threshold, audit, depth⟩ := c
  cases threshold <;> cases audit <;> cases depth <;> rfl

end Choice

/-- Entries of a layer that give values to keys: sections with their keys, and paths. -/
inductive Writes : Item.Entries → List Setting → Prop where
  | nil : Writes [] []
  | table {name es as bs} (hname : name ∈ Settings.sectionKeys)
      (has : ∀ a ∈ as, a.sectionKey = name) (h : Writes es bs) :
    Writes ((name, .table (as.map fun a => (a.key, a.item))) :: es) (as ++ bs)
  | path {a es bs} (h : Writes es bs) : Writes ((a.path, a.item) :: es) (a :: bs)

/-- The layer gives the keys of the choice their values, in any order. -/
def Choice.SetBy (c : Choice) (es : Item.Entries) : Prop := ∃ as, Writes es as ∧ as.Perm c.settings

/-! ## Merging values of keys -/

/-- What a key of a section is bound to. -/
def valueAt (es : Item.Entries) (name key : String) : Option Item :=
  Fields.find? (Item.entriesOf (Fields.find? es name)) key

/-- Binds the key to its value. -/
def assign (es : Item.Entries) (a : Setting) : Item.Entries :=
  let inner := Item.entriesOf (Fields.find? es a.sectionKey)
  Fields.insert a.sectionKey (.table (Fields.insert a.key a.item inner)) es

variable {es : Item.Entries} {s : Settings} {a : Setting} {as : List Setting}

theorem valueAt_insert (name : String) (inner : Item.Entries) (es : Item.Entries)
    (name' key : String) :
    valueAt (Fields.insert name (.table inner) es) name' key =
      if name' = name then Fields.find? inner key else valueAt es name' key := by
  simp only [valueAt, Fields.find?_insert]
  split <;> rfl

theorem valueAt_assign (es : Item.Entries) (a : Setting) (name key : String) :
    valueAt (assign es a) name key =
      if name = a.sectionKey ∧ key = a.key then some a.item else valueAt es name key := by
  rw [assign, valueAt_insert]
  by_cases hname : name = a.sectionKey
  · simp only [hname, Fields.find?_insert, valueAt, true_and, if_true]
  · simp [hname]

theorem Setting.merge_item (a : Setting) (old : Option Item) : Item.merge old a.item = a.item := by
  cases a <;> rfl

theorem Setting.steps_path (a : Setting) :
    Item.steps? ('.' :: a.path.toList) = some [.key a.sectionKey, .key a.key] := by
  have hsteps : ∀ name ∈ Settings.sectionKeys, ∀ key ∈ Settings.engineKeys ++ Settings.parserKeys,
      Item.steps? ('.' :: (name ++ "." ++ key).toList) = some [.key name, .key key] := by
    decide +kernel
  exact hsteps _ a.sectionKey_mem _ a.key_mem

theorem putEntry_path (es : Item.Entries) (a : Setting) :
    Item.putEntry es a.path a.item = assign es a := by
  simp only [Item.putEntry, a.steps_path, Option.getD_some, Item.put, Item.entriesOf,
    a.merge_item, assign]

theorem putEntry_table {name : String} (hname : name ∈ Settings.sectionKeys)
    (es inner : Item.Entries) :
    Item.putEntry es name (.table inner) =
      Fields.insert name
        (.table (Item.mergeEntries (Item.entriesOf (Fields.find? es name)) inner)) es := by
  have hsteps : ∀ name ∈ Settings.sectionKeys,
      Item.steps? ('.' :: name.toList) = some [.key name] := by decide +kernel
  simp only [Item.putEntry, hsteps name hname, Option.getD_some, Item.put, Item.entriesOf,
    Item.merge]

/-- A table of a section binds the same as its keys do one by one. -/
theorem valueAt_putEntry_table {name : String} (hname : name ∈ Settings.sectionKeys)
    (has : ∀ a ∈ as, a.sectionKey = name) (es : Item.Entries) (name' key : String) :
    valueAt (Item.putEntry es name (.table (as.map fun a => (a.key, a.item)))) name' key =
      valueAt (as.foldl assign es) name' key := by
  rw [putEntry_table hname]
  induction as generalizing es with
  | nil =>
    rw [valueAt_insert]
    split
    · rename_i he
      rw [he]
      rfl
    · rfl
  | cons a as ih =>
    obtain ⟨ha, has⟩ := List.forall_mem_cons.1 has
    have hinner : Item.entriesOf (Fields.find? (assign es a) name) =
        Fields.insert a.key a.item (Item.entriesOf (Fields.find? es name)) := by
      simp only [assign, ha, Fields.find?_insert, if_true, Item.entriesOf]
    rw [List.foldl_cons, ← ih has]
    simp only [List.map_cons, Item.mergeEntries, a.merge_item, valueAt_insert, hinner,
      valueAt_assign, ha]
    split <;> simp_all

/-! ## Merging layers -/

/-- All keys of settings, with their values. -/
def Settings.list (s : Settings) : List Setting :=
  [.threshold s.parallelThreshold, .audit s.audit, .depth s.maxNestingDepth]

/-- Every key is bound to its value. -/
def Holds (es : Item.Entries) (s : Settings) : Prop :=
  ∀ a ∈ s.list, valueAt es a.sectionKey a.key = some a.item

theorem Setting.mem_list_change {b : Setting} (hb : b ∈ (a.change s).list) :
    b = a ∨ b.key ≠ a.key ∧ b ∈ s.list := by
  -- A key of another kind has another name.
  cases a <;>
    simp only [Setting.change, Settings.list, List.mem_cons, List.not_mem_nil, or_false] at hb ⊢ <;>
    rcases hb with rfl | rfl | rfl <;>
    simp [Setting.key, Settings.thresholdKey, Settings.auditKey, Settings.depthKey]

theorem Holds.assign (h : Holds es s) (a : Setting) : Holds (assign es a) (a.change s) := by
  intro b hb
  rw [valueAt_assign]
  rcases Setting.mem_list_change hb with rfl | ⟨hne, hb⟩
  · rw [if_pos ⟨rfl, rfl⟩]
  · rw [if_neg (fun hab => hne hab.2), h b hb]

theorem Holds.foldl_assign (h : Holds es s) (as : List Setting) :
    Holds (as.foldl AccessPolicy.assign es) (as.foldl Setting.change s) := by
  induction as generalizing es s with
  | nil => exact h
  | cons a as ih => exact ih (h.assign a)

theorem Holds.putLayer {layer : Item.Entries} (hlayer : Writes layer as) (h : Holds es s) :
    Holds (Item.putLayer es layer) (as.foldl Setting.change s) := by
  induction hlayer generalizing es s with
  | nil => exact h
  | @table name es' as bs hname has _ ih =>
    rw [List.foldl_append]
    refine ih fun b hb => ?_
    rw [valueAt_putEntry_table hname has]
    exact h.foldl_assign as b hb
  | @path a es' bs _ ih =>
    have hput : Item.putLayer es ((a.path, a.item) :: es') =
        Item.putLayer (AccessPolicy.assign es a) es' := by
      rw [Item.putLayer, List.foldl_cons, putEntry_path]
      rfl
    rw [hput]
    exact ih (h.assign a)

theorem Setting.change_comm {a b : Setting} (h : a.key = b.key → a = b) (s : Settings) :
    b.change (a.change s) = a.change (b.change s) := by
  cases a <;> cases b <;> first | rfl | rw [h rfl]

theorem Choice.eq_of_key_eq {c : Choice} {a b : Setting} (ha : a ∈ c.settings)
    (hb : b ∈ c.settings) (h : a.key = b.key) : a = b := by
  cases a <;> cases b <;>
    simp_all [settings, engine, limits, Setting.key, Settings.thresholdKey, Settings.auditKey,
      Settings.depthKey]

/-- In whatever order, the values of a choice come to the same settings. -/
theorem Choice.foldl_change {c : Choice} (h : as.Perm c.settings) (s : Settings) :
    as.foldl (fun s a => a.change s) s = c.above s := by
  rw [h.foldl_eq' fun a ha b hb s =>
    Setting.change_comm (Choice.eq_of_key_eq (h.mem_iff.1 ha) (h.mem_iff.1 hb)) s]
  obtain ⟨threshold, audit, depth⟩ := c
  cases threshold <;> cases audit <;> cases depth <;> rfl

theorem Choice.SetBy.putLayer {c : Choice} {layer : Item.Entries} (hlayer : c.SetBy layer)
    (h : Holds es s) : Holds (Item.putLayer es layer) (c.above s) := by
  obtain ⟨as, has, hperm⟩ := hlayer
  rw [← Choice.foldl_change hperm]
  exact h.putLayer has

/-! ## Reading the merged layers -/

theorem exists_of_valueAt {name key : String} {v : Item} (h : valueAt es name key = some v) :
    ∃ inner, Fields.find? es name = some (.table inner) ∧ Fields.find? inner key = some v := by
  unfold valueAt Item.entriesOf at h
  split at h
  · rename_i inner hinner
    exact ⟨inner, hinner, h⟩
  · cases h

theorem Holds.ofItems? (h : Holds es s) : Settings.ofItems? es = some s := by
  obtain ⟨hthreshold, hkeys⟩ := List.forall_mem_cons.1 h
  obtain ⟨haudit, hkeys⟩ := List.forall_mem_cons.1 hkeys
  have hdepth := List.forall_mem_singleton.1 hkeys
  obtain ⟨engine, hengine, hthreshold⟩ := exists_of_valueAt hthreshold
  obtain ⟨engine', hengine', haudit⟩ := exists_of_valueAt haudit
  obtain ⟨limits, hlimits, hdepth⟩ := exists_of_valueAt hdepth
  obtain rfl : engine = engine' := Item.table.inj (Option.some.inj (hengine.symm.trans hengine'))
  simp only [Setting.key, Setting.sectionKey, Setting.item] at *
  simp [Settings.ofItems?, Settings.itemSection?, Settings.itemKey?, hengine, hlimits, hthreshold,
    haudit, hdepth, Settings.itemNat?, Settings.itemBool?]

theorem holds_toItems (s : Settings) : Holds (Settings.toItems s) s := by
  intro a ha
  simp only [Settings.list, List.mem_cons, List.not_mem_nil, or_false] at ha
  rcases ha with rfl | rfl | rfl <;>
    simp [valueAt, Settings.toItems, Fields.ofList, Fields.find?_insert, Fields.find?_cons,
      Item.entriesOf, Setting.sectionKey, Setting.key, Setting.item, Settings.engineKey,
      Settings.parserKey, Settings.thresholdKey, Settings.auditKey]

end AccessPolicy

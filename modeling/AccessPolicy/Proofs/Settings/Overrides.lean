import AccessPolicy.Proofs.Parse.Takes
import AccessPolicy.Proofs.Settings.Texts

/-! # Layers override key by key

One choice for every source says what the sources set (`Sources.Sets`), however their layers are
written. Each key then has the value of the highest source that sets it (`Choices.effective`): the
layers keep this when they are merged one after the other, each above those before
(`Holds.putLayers`). Only the result is validated. -/

namespace AccessPolicy

/-- A choice for each source. -/
structure Choices where
  user : Choice := {}
  project : Choice := {}
  own : Choice := {}
  environment : Choice := {}

namespace Choices

/-- The highest source first. -/
def list (l : Choices) : List Choice := [l.environment, l.own, l.project, l.user]

/-- Each key with the value of the highest source that sets it, or its default. -/
def effective (l : Choices) : Settings := Choice.first l.list

/-- A file for each choice, and variables behind a word. -/
def sources (word : String) (l : Choices) : Sources where
  userFile := some l.user.text
  projectFile := some l.project.text
  localFile := some l.own.text
  environment := l.environment.environment word
  word := word

end Choices

/-- The file sets what the choice does; where there is none, nothing is set. -/
def Choice.SetByFile (c : Choice) : Option String → Prop
  | none => c = {}
  | some text => ∃ es, Item.layer? text = some es ∧ c.SetBy es

/-- Each source sets what its choice does. -/
structure Sources.Sets (s : Sources) (l : Choices) : Prop where
  user : l.user.SetByFile s.userFile
  project : l.project.SetByFile s.projectFile
  own : l.own.SetByFile s.localFile
  environment : l.environment.SetBy (Item.ofEnvironment s.word s.environment)

variable {s : Sources} {t : Settings} {l : Choices}

theorem Choice.setBy_nil : ({} : Choice).SetBy [] := ⟨[], .nil, .refl _⟩

theorem Choice.SetByFile.exists_layer {c : Choice} {file : Option String} (h : c.SetByFile file) :
    ∃ es, Settings.fileLayer file = .ok es ∧ c.SetBy es := by
  cases file with
  | none =>
    obtain rfl : c = {} := h
    exact ⟨[], rfl, setBy_nil⟩
  | some text =>
    obtain ⟨es, hes, hset⟩ := h
    exact ⟨es, by rw [Settings.fileLayer, hes], hset⟩

/-- **Every choice has sources that set it.** -/
theorem Choices.sets_sources (h : ∀ c ∈ l.list, ∀ a ∈ c.settings, a.Fits) (word : String) :
    (l.sources word).Sets l := by
  obtain ⟨henvironment, h⟩ := List.forall_mem_cons.1 h
  obtain ⟨hown, h⟩ := List.forall_mem_cons.1 h
  obtain ⟨hproject, h⟩ := List.forall_mem_cons.1 h
  have huser := List.forall_mem_singleton.1 h
  exact ⟨Choice.layer?_text huser, Choice.layer?_text hproject, Choice.layer?_text hown,
    Choice.setBy_environment henvironment word⟩

/-- Layers one after the other go above those that are there. -/
theorem Holds.putLayers {cs below : List Choice} {layers : List Item.Entries} {es : Item.Entries}
    (h : List.Forall₂ Choice.SetBy cs layers) (hes : Holds es (Choice.first below)) :
    Holds (layers.foldl Item.putLayer es) (Choice.first (cs.reverse ++ below)) := by
  induction h generalizing es below with
  | nil => exact hes
  | @cons c layer cs layers hc _ ih =>
    have hput : Holds (Item.putLayer es layer) (Choice.first (c :: below)) := by
      rw [Choice.first_cons]
      exact hc.putLayer hes
    rw [List.reverse_cons, List.append_assoc]
    exact ih hput

namespace Settings

/-- Sources that set choices are read, and what they come to is validated. -/
theorem load_eq_validate (h : s.Sets l) : load s = l.effective.validate := by
  obtain ⟨user, huser, hu⟩ := h.user.exists_layer
  obtain ⟨project, hproject, hp⟩ := h.project.exists_layer
  obtain ⟨own, hown, ho⟩ := h.own.exists_layer
  have hlayers : List.Forall₂ Choice.SetBy [l.user, l.project, l.own, l.environment]
      [user, project, own, Item.ofEnvironment s.word s.environment] :=
    .cons hu (.cons hp (.cons ho (.cons h.environment .nil)))
  have hmerged : Holds _ l.effective := @Holds.putLayers _ [] _ _ hlayers (holds_toItems {})
  simp only [load, huser, hproject, hown, bind, Except.bind, hmerged.ofItems?]

theorem validate_eq_ok_iff {t' : Settings} :
    t.validate = .ok t' ↔ t = t' ∧ t'.maxNestingDepth ≠ 0 := by
  rw [validate]
  split <;> grind

theorem validate_eq_error_iff {e : SettingsError} :
    t.validate = .error e ↔ t.maxNestingDepth = 0 ∧ e = .invalid := by
  rw [validate]
  split <;> grind

theorem ne_zero_of_load (h : load s = .ok t) : t.maxNestingDepth ≠ 0 := by
  obtain ⟨user, -, h⟩ := Parse.bind_eq_ok_iff.1 h
  obtain ⟨project, -, h⟩ := Parse.bind_eq_ok_iff.1 h
  obtain ⟨own, -, h⟩ := Parse.bind_eq_ok_iff.1 h
  dsimp only at h
  split at h
  · exact (validate_eq_ok_iff.1 h).2
  · cases h

theorem loadOrDefault_ne_zero (s : Sources) : (loadOrDefault s).maxNestingDepth ≠ 0 := by
  rw [loadOrDefault]
  split
  · rename_i h
    exact ne_zero_of_load h
  · decide

/-- **The highest layer that sets a key decides it, and only the result is validated.** Whatever the
sources set, in any writing, each key has the value of the environment, else of the local file, else
of the file of the project, else of the user, else its default. Loading fails if and only if the
depth that comes out is zero, and then the defaults take the place of all settings. All choices have
sources, as far as a layer has their numbers. -/
theorem load_overrides (l : Choices) :
    (∀ s : Sources, s.Sets l →
      ((∃ e, load s = .error e) ↔ l.effective.maxNestingDepth = 0) ∧
      (l.effective.maxNestingDepth ≠ 0 → load s = .ok l.effective) ∧
      (l.effective.maxNestingDepth = 0 →
        load s = .error .invalid ∧ loadOrDefault s = {})) ∧
      ((∀ c ∈ l.list, ∀ a ∈ c.settings, a.Fits) → ∀ word, (l.sources word).Sets l) ∧
      ∀ s, (loadOrDefault s).maxNestingDepth ≠ 0 := by
  refine ⟨fun s hs => ?_, Choices.sets_sources, loadOrDefault_ne_zero⟩
  have hload : load s = l.effective.validate := load_eq_validate hs
  refine ⟨?_, fun h => hload.trans (validate_eq_ok_iff.2 ⟨rfl, h⟩), fun h => ?_⟩
  · simp only [hload, validate_eq_error_iff, exists_and_left, exists_eq, and_true]
  · have herror : load s = .error .invalid := hload.trans (validate_eq_error_iff.2 ⟨h, rfl⟩)
    exact ⟨herror, by rw [loadOrDefault, herror]⟩

/-- A zero of the user counts for nothing below the file of the project, and one of the local file
is refused above it. The entries are paths, tables in one line, and variables in capitals. -/
theorem load_overrides_zero :
    let l : Choices := {
      user := { audit? := some false, depth? := some 0 }
      project := { threshold? := some 8, depth? := some 16 }
      environment := { audit? := some true } }
    let s : Sources := {
      userFile := some "parser.max_nesting_depth = 0\nengine = \x7baudit = false\x7d\n"
      projectFile := some
        "[parser]\nmax_nesting_depth = 16\n\n[engine]\nparallel_threshold = 8\n"
      environment := [("PATH", "/bin"), ("WARDEN_ENGINE__AUDIT", "TRUE")]
      word := "WARDEN" }
    let l' : Choices := { l with own := { depth? := some 0 } }
    let s' : Sources := { s with
      localFile := some "engine = \x7b\x7d\nparser.max_nesting_depth = 0 # none\n" }
    (s.Sets l ∧ load s = .ok ⟨8, true, 16⟩) ∧
      (s'.Sets l' ∧ load s' = .error .invalid ∧ loadOrDefault s' = {}) ∧
      load (l.sources "ACCESS") = .ok ⟨8, true, 16⟩ := by
  intro l s l' s'
  obtain ⟨hload, hsources, -⟩ := load_overrides l
  obtain ⟨hload', -, -⟩ := load_overrides l'
  -- the characters are spelled out before a document is read, and its numbers are left in `ofInt`:
  -- the bounds of an integer are only compared with one that is known
  have huserDocument : Toml.parse? .claimed (Text.behindMark
      "parser.max_nesting_depth = 0\nengine = \x7baudit = false\x7d\n".toList) =
        some [(engineKey, .table .inlined [(auditKey, .bool false)]),
          (parserKey, .table .dotted [(depthKey, .ofInt 0)])] := by
    rw [String.toList_ofList]
    with_unfolding_all rfl
  have hprojectDocument : Toml.parse? .claimed (Text.behindMark
      "[parser]\nmax_nesting_depth = 16\n\n[engine]\nparallel_threshold = 8\n".toList) =
        some [(engineKey, .table .header [(thresholdKey, .ofInt 8)]),
          (parserKey, .table .header [(depthKey, .ofInt 16)])] := by
    rw [String.toList_ofList]
    with_unfolding_all rfl
  have hownDocument : Toml.parse? .claimed (Text.behindMark
      "engine = \x7b\x7d\nparser.max_nesting_depth = 0 # none\n".toList) =
        some [(engineKey, .table .inlined []),
          (parserKey, .table .dotted [(depthKey, .ofInt 0)])] := by
    rw [String.toList_ofList]
    with_unfolding_all rfl
  have huser : l.user.SetByFile s.userFile :=
    Choice.layer?_of_tables (by decide) (.refl _) huserDocument
  have hproject : l.project.SetByFile s.projectFile :=
    Choice.layer?_of_tables (by decide) (.refl _) hprojectDocument
  have hown : l'.own.SetByFile s'.localFile :=
    Choice.layer?_of_tables (by decide) (.refl _) hownDocument
  have henvironment : l.environment.SetBy (Item.ofEnvironment s.word s.environment) := by
    have hpath : Item.variableKey? (Text.lower ("WARDEN" ++ "_").toList) "PATH" = none := by
      decide +kernel
    have haudit : Item.variableKey? (Text.lower ("WARDEN" ++ "_").toList)
        "WARDEN_ENGINE__AUDIT" = some "engine.audit" := by decide +kernel
    have htrue : Item.ofVariable "TRUE" = .bool true := if_pos (by decide +kernel)
    have henv : Item.ofEnvironment s.word s.environment = [("engine.audit", .bool true)] := by
      simp only [Item.ofEnvironment, s, List.filterMap_cons, hpath, haudit, htrue,
        Option.map_none, Option.map_some, List.filterMap_nil]
    rw [henv]
    exact ⟨[.audit true], @Writes.path (.audit true) _ _ .nil, .refl _⟩
  have hsets : s.Sets l := ⟨huser, hproject, rfl, henvironment⟩
  have hsets' : s'.Sets l' := ⟨huser, hproject, hown, henvironment⟩
  obtain ⟨-, hok, -⟩ := hload s hsets
  obtain ⟨-, -, herror⟩ := hload' s' hsets'
  have hfits : ∀ c ∈ l.list, ∀ a ∈ c.settings, a.Fits := by decide
  obtain ⟨-, hwritten, -⟩ := hload _ (hsources hfits "ACCESS")
  exact ⟨⟨hsets, hok (by decide)⟩, ⟨hsets', herror rfl⟩, hwritten (by decide)⟩

/-- A number above the longs is a setting in a document of its own, but not in a layer: in a file it
is refused, and in a variable it is rounded to a float. -/
theorem load_wide_threshold :
    ofFile (some "[engine]\nparallel_threshold = 18446744073709551615\n") =
        .ok { parallelThreshold := 18446744073709551615 } ∧
      load {
        projectFile := some "[engine]\nparallel_threshold = 18446744073709551615\n"
        word := "WARDEN" } = .error .build ∧
      load {
        environment := [("WARDEN_ENGINE__PARALLEL_THRESHOLD", "9223372036854775809")]
        word := "WARDEN" } = .ok { parallelThreshold := 9223372036854775808 } :=
  ⟨by decide +kernel, by decide +kernel, by decide +kernel⟩

end Settings

end AccessPolicy

import AccessPolicy.Proofs.Settings.Layers
import AccessPolicy.Proofs.Toml.Lines

/-! # Layers in writing

Every choice of values that fit can be written, as a file with a table for each section
(`Choice.layer?_text`) and as variables of the environment (`Choice.setBy_environment`). -/

namespace AccessPolicy

/-! ## Settings in a file -/

namespace Setting

/-- A layer holds the value: its numbers are longs. -/
def Fits : Setting → Prop
  | .threshold n | .depth n => n < 0x8000000000000000
  | .audit _ => True

instance : DecidablePred Fits
  | .threshold n | .depth n => inferInstanceAs (Decidable (n < 0x8000000000000000))
  | .audit _ => .isTrue trivial

def valueText : Setting → String
  | .threshold n | .depth n => toString n
  | .audit b => toString b

def line (a : Setting) : String := a.key ++ " = " ++ a.valueText ++ "\n"

def toml : Setting → Toml
  | .threshold n | .depth n => .integer n
  | .audit b => .bool b

end Setting

namespace Toml

theorem bare_of_mem {key : String}
    (h : key ∈ Settings.sectionKeys ++ (Settings.engineKeys ++ Settings.parserKeys)) :
    Bare key.toList := by
  have hkeys : ∀ key ∈ Settings.sectionKeys ++ (Settings.engineKeys ++ Settings.parserKeys),
      key.toList ≠ [] ∧ key.toList.all isBareChar = true := by decide
  obtain ⟨hne, hchars⟩ := hkeys key h
  exact ⟨hne, List.all_eq_true.1 hchars⟩

theorem bare_key (a : Setting) : Bare a.key.toList :=
  bare_of_mem (List.mem_append_right _ a.key_mem)

theorem isWordChar_of_isDigit {d : Char} (h : d.isDigit = true) : isWordChar d = true := by
  have hends : wordEnds.any Char.isDigit = false := by decide
  exact decide_eq_true fun hd => List.any_eq_false.1 hends d hd h

theorem gives_nat {n : Nat} (hn : n < 0x8000000000000000) :
    ∃ c cs, (toString n).toList = c :: cs ∧ Text.isSpace c = false ∧
      ∀ rest, (value nestingLimit (c :: cs ++ '\n' :: rest)).Gives (.integer n) ('\n' :: rest) := by
  obtain ⟨c, cs, hcs, hdigits, hzero, hvalue⟩ := exists_digits n
  have hword : word? (c :: cs) = some (.integer n) := by
    rw [word?_digits hdigits hzero, hvalue, ofInt, if_pos (by omega)]
  refine ⟨c, cs, hcs, ?_, gives_value (fun d hd => isWordChar_of_isDigit (hdigits d hd))
    (ne_of_digits hdigits '"' rfl) (ne_of_digits hdigits '\'' rfl) hword nestingLimit⟩
  simp [Text.isSpace, ne_of_digits hdigits ' ' rfl, ne_of_digits hdigits '\t' rfl]

theorem gives_bool (b : Bool) :
    ∃ c cs, (toString b).toList = c :: cs ∧ Text.isSpace c = false ∧
      ∀ rest, (value nestingLimit (c :: cs ++ '\n' :: rest)).Gives (.bool b) ('\n' :: rest) := by
  cases b with
  | false =>
    have hword : ∀ d ∈ ['f', 'a', 'l', 's', 'e'], isWordChar d = true := List.all_eq_true.1 rfl
    exact ⟨_, _, by with_unfolding_all rfl, rfl, gives_value hword nofun nofun rfl nestingLimit⟩
  | true =>
    have hword : ∀ d ∈ ['t', 'r', 'u', 'e'], isWordChar d = true := List.all_eq_true.1 rfl
    exact ⟨_, _, by with_unfolding_all rfl, rfl, gives_value hword nofun nofun rfl nestingLimit⟩

theorem lines_line {a : Setting} (ha : a.Fits) {rule : ImpliedRule} {path : List String}
    {es : Entries} (rest : List Char) :
    lines rule path es (a.line.toList ++ rest) =
      (insertUnder? rule [a.key] a.toml path es).bind fun es => lines rule path es rest := by
  have hvalue : ∃ c cs, a.valueText.toList = c :: cs ∧ Text.isSpace c = false ∧
      ∀ rest, (value nestingLimit (c :: cs ++ '\n' :: rest)).Gives a.toml ('\n' :: rest) := by
    cases a with
    | threshold n | depth n => exact gives_nat ha
    | audit b => exact gives_bool b
  obtain ⟨c, cs, hcs, hc, hvalue⟩ := hvalue
  have hline : a.line.toList ++ rest =
      a.key.toList ++ ' ' :: '=' :: ' ' :: (c :: cs ++ '\n' :: rest) := by
    simp [Setting.line, hcs]
  rw [hline, (bare_key a).lines_entry hc (hvalue rest), String.ofList_toList]

end Toml

/-- A section with some settings, one on each line. -/
def sectionText (name : String) (as : List Setting) : String :=
  "[" ++ name ++ "]\n" ++ String.join (as.map Setting.line)

/-- A file with what the choice sets. -/
def Choice.text (c : Choice) : String :=
  sectionText Settings.engineKey c.engine ++ sectionText Settings.parserKey c.limits

namespace Toml

variable {rule : ImpliedRule} {path : List String} {es : Entries}

theorem lines_settings {as : List Setting} (has : ∀ a ∈ as, a.Fits) (rest : List Char) :
    lines rule path es ((String.join (as.map Setting.line)).toList ++ rest) =
      (as.foldlM (fun es a => insertUnder? rule [a.key] a.toml path es) es).bind fun es =>
        lines rule path es rest := by
  induction as generalizing es with
  | nil => simp
  | cons a as ih =>
    obtain ⟨ha, has⟩ := List.forall_mem_cons.1 has
    simp only [List.map_cons, String.join_cons, String.toList_append, List.append_assoc]
    rw [lines_line ha]
    simp only [ih has, List.foldlM_cons, Option.bind_eq_bind, Option.bind_assoc]

theorem lines_sectionText {name : String} {as : List Setting} (hname : name ∈ Settings.sectionKeys)
    (has : ∀ a ∈ as, a.Fits) (rest : List Char) :
    lines rule path es ((sectionText name as).toList ++ rest) =
      (openTable? [name] es).bind fun es =>
        (as.foldlM (fun es a => insertUnder? rule [a.key] a.toml [name] es) es).bind fun es =>
          lines rule [name] es rest := by
  have hheader : (sectionText name as).toList ++ rest = '[' :: (name.toList ++ ']' :: '\n' ::
      ((String.join (as.map Setting.line)).toList ++ rest)) := by
    simp [sectionText]
  have hbare : Bare name.toList := bare_of_mem (List.mem_append_left _ hname)
  rw [hheader, hbare.lines_header, String.ofList_toList]
  simp only [lines_settings has]

end Toml

theorem Setting.ofToml?_toml {a : Setting} (ha : a.Fits) : Item.ofToml? a.toml = some a.item := by
  cases a with
  | threshold n | depth n =>
    have hn : n < 0x8000000000000000 := ha
    rw [toml, Item.ofToml?, if_pos (by omega)]
    rfl
  | audit b => rfl

theorem ofTomlEntries?_settings {as : List Setting} (has : ∀ a ∈ as, a.Fits) :
    Item.ofTomlEntries? (as.map fun a => (a.key, a.toml)) =
      some (as.map fun a => (a.key, a.item)) := by
  induction as with
  | nil => rfl
  | cons a as ih =>
    obtain ⟨ha, has⟩ := List.forall_mem_cons.1 has
    simp [Item.ofTomlEntries?, Setting.ofToml?_toml ha, ih has]

namespace Choice

variable {c : Choice}

/-- The table of a section keeps its keys in their order, which is not that of the lines. -/
theorem exists_engine_table (c : Choice) : ∃ as : List Setting, as.Perm c.engine ∧
    c.engine.foldlM (fun es a => Toml.insertUnder? .claimed [a.key] a.toml [Settings.engineKey] es)
      [(Settings.engineKey, .table .header [])] =
        some [(Settings.engineKey, .table .header (as.map fun a => (a.key, a.toml)))] := by
  obtain ⟨threshold, audit, depth⟩ := c
  cases threshold with
  | none => cases audit <;> exact ⟨_, .refl _, by with_unfolding_all rfl⟩
  | some n =>
    cases audit with
    | none => exact ⟨_, .refl _, by with_unfolding_all rfl⟩
    | some b =>
      have hlt : compare Settings.auditKey Settings.thresholdKey = .lt := by decide +kernel
      have hne : Settings.auditKey ≠ Settings.thresholdKey := by decide
      refine ⟨[.audit b, .threshold n], .swap _ _ _, ?_⟩
      simp [engine, Setting.key, Setting.toml, Toml.insertUnder?, Toml.insert?, Fields.find?_cons,
        Fields.insert, hlt, hne]

theorem sectionKey_of_mem_engine {a : Setting} (h : a ∈ c.engine) :
    a.sectionKey = Settings.engineKey := by
  cases a <;> simp_all [engine, Setting.sectionKey]

theorem sectionKey_of_mem_limits {a : Setting} (h : a ∈ c.limits) :
    a.sectionKey = Settings.parserKey := by
  cases a <;> simp_all [limits, Setting.sectionKey]

theorem setBy_sections {as : List Setting} (hperm : as.Perm c.engine) :
    c.SetBy [(Settings.engineKey, .table (as.map fun a => (a.key, a.item))),
      (Settings.parserKey, .table (c.limits.map fun a => (a.key, a.item)))] := by
  have hlimits : Writes [(Settings.parserKey, .table (c.limits.map fun a => (a.key, a.item)))]
      (c.limits ++ []) := .table (by decide) (fun a ha => sectionKey_of_mem_limits ha) .nil
  rw [List.append_nil] at hlimits
  have hengine : ∀ a ∈ as, a.sectionKey = Settings.engineKey := fun a ha =>
    sectionKey_of_mem_engine (hperm.mem_iff.1 ha)
  exact ⟨as ++ c.limits, .table (by decide) hengine hlimits, hperm.append_right _⟩

theorem behindMark_text (c : Choice) : Text.behindMark c.text.toList = c.text.toList := by
  have hhead : ∃ cs, c.text.toList = '[' :: cs := ⟨_, by simp [text, sectionText]; rfl⟩
  obtain ⟨cs, hcs⟩ := hhead
  rw [hcs]
  rfl

theorem limits_table (c : Choice) (engine : Toml) :
    c.limits.foldlM (fun es a => Toml.insertUnder? .claimed [a.key] a.toml [Settings.parserKey] es)
      [(Settings.engineKey, engine), (Settings.parserKey, .table .header [])] =
        some [(Settings.engineKey, engine),
          (Settings.parserKey, .table .header (c.limits.map fun a => (a.key, a.toml)))] := by
  obtain ⟨threshold, audit, depth⟩ := c
  cases depth <;> with_unfolding_all rfl

/-- The file has a table for each section. -/
theorem parse?_text (h : ∀ a ∈ c.settings, a.Fits) : ∃ as : List Setting, as.Perm c.engine ∧
    Toml.parse? .claimed (Text.behindMark c.text.toList) =
      some [(Settings.engineKey, .table .header (as.map fun a => (a.key, a.toml))),
        (Settings.parserKey, .table .header (c.limits.map fun a => (a.key, a.toml)))] := by
  have hengine : ∀ a ∈ c.engine, a.Fits := fun a ha => h a (List.mem_append_left _ ha)
  have hlimits : ∀ a ∈ c.limits, a.Fits := fun a ha => h a (List.mem_append_right _ ha)
  obtain ⟨as, hperm, htable⟩ := c.exists_engine_table
  have htext : c.text.toList = (sectionText Settings.engineKey c.engine).toList ++
      ((sectionText Settings.parserKey c.limits).toList ++ []) := by
    simp [text]
  have hopen : Toml.openTable? [Settings.engineKey] [] =
      some [(Settings.engineKey, .table .header [])] := by with_unfolding_all rfl
  have hopen' (engine : Toml) :
      Toml.openTable? [Settings.parserKey] [(Settings.engineKey, engine)] =
        some [(Settings.engineKey, engine), (Settings.parserKey, .table .header [])] := by
    with_unfolding_all rfl
  refine ⟨as, hperm, ?_⟩
  rw [Toml.parse?, behindMark_text, behindMark_text, htext,
    Toml.lines_sectionText (by decide) hengine, hopen, Option.bind_some, htable,
    Option.bind_some, Toml.lines_sectionText (by decide) hlimits, hopen', Option.bind_some,
    limits_table, Option.bind_some, Toml.lines_nil]

/-- A file whose two tables hold the settings of the choice sets it, however the tables came to
be. -/
theorem layer?_of_tables {text : String} {as : List Setting} {o o' : Toml.Origin}
    (h : ∀ a ∈ c.settings, a.Fits) (hperm : as.Perm c.engine)
    (hparse : Toml.parse? .claimed (Text.behindMark text.toList) =
      some [(Settings.engineKey, .table o (as.map fun a => (a.key, a.toml))),
        (Settings.parserKey, .table o' (c.limits.map fun a => (a.key, a.toml)))]) :
    ∃ es, Item.layer? text = some es ∧ c.SetBy es := by
  have has : ∀ a ∈ as, a.Fits := fun a ha =>
    h a (List.mem_append_left _ (hperm.mem_iff.1 ha))
  have hlimits : ∀ a ∈ c.limits, a.Fits := fun a ha => h a (List.mem_append_right _ ha)
  refine ⟨_, ?_, setBy_sections hperm⟩
  rw [Item.layer?, hparse]
  simp [Item.ofTomlEntries?, Item.ofToml?, ofTomlEntries?_settings has,
    ofTomlEntries?_settings hlimits]

/-- **Every choice has a file that sets it.** -/
theorem layer?_text (h : ∀ a ∈ c.settings, a.Fits) :
    ∃ es, Item.layer? c.text = some es ∧ c.SetBy es := by
  obtain ⟨as, hperm, hparse⟩ := c.parse?_text h
  exact layer?_of_tables h hperm hparse

end Choice

/-! ## Settings in the environment -/

namespace Text

/-- An underscore is not cased, and a sigma in front of it does not look past it. -/
theorem casedNext_underscore (cs ds : List Char) :
    casedNext (cs ++ '_' :: ds) = casedNext (cs ++ ['_']) := by
  have hignorable : isCaseIgnorable '_' = false := by decide +kernel
  induction cs with
  | nil => simp [casedNext, hignorable]
  | cons c cs ih =>
    simp only [casedNext, List.cons_append] at ih ⊢
    cases hc : isCaseIgnorable c
    · rw [List.dropWhile_cons_of_neg (by simp [hc]), List.dropWhile_cons_of_neg (by simp [hc])]
      rfl
    · rw [List.dropWhile_cons_of_pos hc, List.dropWhile_cons_of_pos hc, ih]

theorem lowerAfter_underscore (before cs ds : List Char) :
    lowerAfter before (cs ++ '_' :: ds) =
      lowerAfter before (cs ++ ['_']) ++ lowerAfter ('_' :: (cs.reverse ++ before)) ds := by
  induction cs generalizing before with
  | nil => simp [lowerAfter, show '_' ≠ capitalSigma by decide]
  | cons c cs ih =>
    have hsigma : lowerSigma before (cs ++ '_' :: ds) = lowerSigma before (cs ++ ['_']) := by
      rw [lowerSigma, casedNext_underscore]
      rfl
    simp only [List.cons_append, lowerAfter, hsigma, ih, List.append_assoc, List.reverse_cons,
      List.nil_append]

theorem lowerChar_of_isDigit {c : Char} (h : c.isDigit = true) : lowerChar c = [c] := by
  have hfirst : ∀ r ∈ lowerRuns, 0x3A ≤ r.first := by decide +kernel
  have hnone : lowerRuns.find? (fun r => decide (r.first ≤ c.toNat) && decide (c.toNat ≤ r.last) &&
      (c.toNat - r.first) % r.step == 0) = none := by
    refine List.find?_eq_none.2 fun r hr => ?_
    have hr := hfirst r hr
    have hc := (Lexer.toNat_of_isDigit h).2
    have hlt : ¬ r.first ≤ c.toNat := by omega
    simp [hlt]
  have hc : c ≠ '\u0130' := by
    rintro rfl
    cases h
  rw [lowerChar, if_neg hc, hnone]

end Text

namespace Setting

/-- The path as a variable has it, in capitals and with underscores for the point. -/
def capitals (a : Setting) : String := a.sectionKey.toUpper ++ "__" ++ a.key.toUpper

/-- The variable that sets the key, behind a word. -/
def variableName (word : String) (a : Setting) : String := word ++ "_" ++ a.capitals

theorem capitalSigma_notMem (a : Setting) : Text.capitalSigma ∉ a.capitals.toList := by
  cases a <;> simp only [capitals, sectionKey, key] <;> decide +kernel

theorem pointed_capitals (a : Setting) :
    String.ofList (Item.pointed (a.capitals.toList.flatMap Text.lowerChar)) = a.path := by
  have hpointed : ∀ name ∈ Settings.sectionKeys,
      ∀ key ∈ Settings.engineKeys ++ Settings.parserKeys,
      String.ofList (Item.pointed
        ((name.toUpper ++ "__" ++ key.toUpper).toList.flatMap Text.lowerChar)) =
          name ++ "." ++ key := by decide +kernel
  exact hpointed _ a.sectionKey_mem _ a.key_mem

theorem variableKey?_variableName (word : String) (a : Setting) :
    Item.variableKey? (Text.lower (word ++ "_").toList) (a.variableName word) = some a.path := by
  have hstart : (word ++ "_").toList = word.toList ++ ['_'] := by simp
  have hname : (a.variableName word).toList = word.toList ++ '_' :: a.capitals.toList := by
    simp [variableName]
  have hlower : Text.lower (a.variableName word).toList =
      Text.lower (word ++ "_").toList ++ a.capitals.toList.flatMap Text.lowerChar := by
    rw [hname, hstart, Text.lower, Text.lowerAfter_underscore,
      Text.lowerAfter_eq_flatMap a.capitalSigma_notMem]
    rfl
  have hstarts : (Text.lower (word ++ "_").toList).isPrefixOf
      (Text.lower (a.variableName word).toList) = true := by
    rw [hlower, List.isPrefixOf_iff_prefix]
    exact List.prefix_append _ _
  rw [Item.variableKey?, if_pos hstarts, hlower, List.drop_left, a.pointed_capitals]

end Setting

theorem lowered_nat (n : Nat) : Item.lowered (toString n) = toString n := by
  obtain ⟨c, cs, hcs, hdigits, -, -⟩ := exists_digits n
  have hsigma : Text.capitalSigma ∉ (toString n).toList := hcs ▸ notMem_of_digits hdigits rfl
  have hflat : (toString n).toList.flatMap Text.lowerChar = (toString n).toList := by
    rw [hcs, List.flatMap_congr fun d hd => Text.lowerChar_of_isDigit (hdigits d hd),
      List.flatMap_singleton']
  rw [Item.lowered, Text.lower_eq_flatMap hsigma, hflat, String.ofList_toList]

theorem ofVariable_nat {n : Nat} (hn : n < 0x8000000000000000) :
    Item.ofVariable (toString n) = .integer n := by
  obtain ⟨c, cs, hcs, hdigits, -, hvalue⟩ := exists_digits n
  have hword (s : String) (hs : s.toList.all Char.isDigit = false) : toString n ≠ s := by
    intro he
    rw [← he, hcs, List.all_eq_true.2 hdigits] at hs
    cases hs
  have hlong : Item.long? ['-', '+'] (toString n).toList = some (n : Int) := by
    have hsign : c ∉ ['-', '+'] := by
      simp [ne_of_digits hdigits '-' rfl, ne_of_digits hdigits '+' rfl]
    rw [hcs, Item.long?]
    have hn : (n : Int) < 0x8000000000000000 := by omega
    simpa [hsign, hvalue, any_not_digit hdigits] using hn
  rw [Item.ofVariable, lowered_nat, if_neg (hword _ (by decide)), if_neg (hword _ (by decide)),
    hlong]

theorem Setting.ofVariable_valueText {a : Setting} (ha : a.Fits) :
    Item.ofVariable a.valueText = a.item := by
  cases a with
  | threshold n | depth n => exact ofVariable_nat ha
  | audit b => cases b <;> with_unfolding_all rfl

/-- The variables that set what the choice sets. -/
def Choice.environment (word : String) (c : Choice) : List (String × String) :=
  c.settings.map fun a => (a.variableName word, a.valueText)

theorem writes_paths (as : List Setting) : Writes (as.map fun a => (a.path, a.item)) as := by
  induction as with
  | nil => exact .nil
  | cons a as ih => exact .path ih

theorem Choice.setBy_environment {c : Choice} (h : ∀ a ∈ c.settings, a.Fits) (word : String) :
    c.SetBy (Item.ofEnvironment word (c.environment word)) := by
  have henv : Item.ofEnvironment word (c.environment word) =
      c.settings.map fun a => (a.path, a.item) := by
    rw [Item.ofEnvironment, environment, List.filterMap_map, ← List.filterMap_eq_map]
    refine List.filterMap_congr fun a ha => ?_
    simp only [Function.comp_apply, a.variableKey?_variableName word, Option.map_some,
      Setting.ofVariable_valueText (h a ha)]
  exact ⟨_, henv ▸ writes_paths _, .refl _⟩

end AccessPolicy

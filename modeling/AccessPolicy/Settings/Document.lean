import AccessPolicy.Settings.Basic
import AccessPolicy.Toml.Parser

/-! Settings from one TOML document. A missing key has its default, a key that is no setting does
not count, and every value has to be of its own type. -/

namespace AccessPolicy.Settings

def tomlNat? : Toml → Option Nat
  | .integer n => if 0 ≤ n ∧ n < 0x10000000000000000 then some n.toNat else none
  | _ => none

def tomlBool? : Toml → Option Bool
  | .bool b => some b
  | _ => none

/-- The value of a key, or the default if the key is missing. -/
def tomlKey? {α : Type} (es : Toml.Entries) (key : String) (want? : Toml → Option α)
    (default : α) : Option α :=
  match Fields.find? es key with
  | none => some default
  | some v => want? v

/-- The entries of a section; a missing one is empty, and an array gives values to the keys in their
order. All that a table holds has to have a value, and of an array what the keys get. -/
def tomlSection? (es : Toml.Entries) (key : String) (keys : List String) : Option Toml.Entries :=
  match Fields.find? es key with
  | none => some []
  | some (.table _ inner) => if Toml.entriesHaveValue inner then some inner else none
  | some (.array items) => some (keys.zip items)
  | some _ => none

/-- The entries that are no section do not count, but have to have a value. -/
def othersHaveValue (es : Toml.Entries) : Bool :=
  es.all fun e => decide (e.1 ∈ sectionKeys) || e.2.hasValue

def ofEntries? (es : Toml.Entries) : Option Settings := do
  let d : Settings := {}
  guard (othersHaveValue es)
  let engine ← tomlSection? es engineKey engineKeys
  let limits ← tomlSection? es parserKey parserKeys
  let threshold ← tomlKey? engine thresholdKey tomlNat? d.parallelThreshold
  let audit ← tomlKey? engine auditKey tomlBool? d.audit
  let depth ← tomlKey? limits depthKey tomlNat? d.maxNestingDepth
  some ⟨threshold, audit, depth⟩

def ofTomlText (text : String) : Except SettingsError Settings :=
  match (Toml.parse? .passed text.toList).bind ofEntries? with
  | some s => s.validate
  | none => .error .malformed

/-- The settings of a file, of which the text is given if there is one. -/
def ofFile : Option String → Except SettingsError Settings
  | none => .error .unreadable
  | some text => ofTomlText text

end AccessPolicy.Settings

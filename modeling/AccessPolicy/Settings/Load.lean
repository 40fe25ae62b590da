import AccessPolicy.Settings.Document
import AccessPolicy.Settings.Layer

/-! Settings from layers: the defaults, below the file of a user, below the file of a project, below
its local file, below the environment. Only the merged result is looked at. A boolean is also
read from a number and from a word, and a natural number from a boolean, a float, a word and
decimal digits. -/

namespace AccessPolicy

/-- Where settings come from: the texts of the files that are there, and the environment with the
word that its variables start with. -/
structure Sources where
  userFile : Option String := none
  projectFile : Option String := none
  localFile : Option String := none
  environment : List (String × String) := []
  word : String

namespace Settings

def yesWords : List String := ["true", "on", "yes"]

def noWords : List String := ["false", "off", "no"]

def itemBool? : Item → Option Bool
  | .bool b => some b
  | .integer n => some (n != 0)
  | .float x => some (!x.isZero)
  | .string s =>
    let s := Item.lowered s
    if s = "1" ∨ s ∈ yesWords then some true
    else if s = "0" ∨ s ∈ noWords then some false
    else none
  | .gap | .list _ | .table _ => none

/-- The number that decimal digits write, behind a plus sign or not. -/
def digitsNat? (cs : List Char) : Option Nat :=
  let digits := match cs with
    | '+' :: cs => cs
    | cs => cs
  if digits.isEmpty ∨ digits.any (!·.isDigit) then none
  else
    let n := Decimal.Double.value digits
    if n < 0x10000000000000000 then some n else none

def itemNat? : Item → Option Nat
  | .bool b => some (if b then 1 else 0)
  | .integer n => if 0 ≤ n then some n.toNat else none
  | .float x => some (x.saturate 0xFFFFFFFFFFFFFFFF)
  | .string s =>
    if Item.lowered s ∈ yesWords then some 1
    else if Item.lowered s ∈ noWords then some 0
    else digitsNat? s.toList
  | .gap | .list _ | .table _ => none

/-- The value of a key, or the default if the key is missing. -/
def itemKey? {α : Type} (es : Item.Entries) (key : String) (want? : Item → Option α)
    (default : α) : Option α :=
  match Fields.find? es key with
  | none => some default
  | some v => want? v

/-- The entries of a section; a missing one is empty, and a list gives values to the keys in their
order. -/
def itemSection? (es : Item.Entries) (key : String) (keys : List String) : Option Item.Entries :=
  match Fields.find? es key with
  | none => some []
  | some (.table inner) => some inner
  | some (.list items) => some (keys.zip items)
  | some _ => none

def ofItems? (es : Item.Entries) : Option Settings := do
  let d : Settings := {}
  let engine ← itemSection? es engineKey engineKeys
  let limits ← itemSection? es parserKey parserKeys
  let threshold ← itemKey? engine thresholdKey itemNat? d.parallelThreshold
  let audit ← itemKey? engine auditKey itemBool? d.audit
  let depth ← itemKey? limits depthKey itemNat? d.maxNestingDepth
  some ⟨threshold, audit, depth⟩

/-- The layer of given settings. -/
def toItems (s : Settings) : Item.Entries :=
  Fields.ofList [
    (engineKey, .table (Fields.ofList [
      (thresholdKey, .integer s.parallelThreshold),
      (auditKey, .bool s.audit)])),
    (parserKey, .table [(depthKey, .integer s.maxNestingDepth)])]

/-- The layer of a file; a missing one is empty. -/
def fileLayer : Option String → Except SettingsError Item.Entries
  | none => .ok []
  | some text =>
    match Item.layer? text with
    | some es => .ok es
    | none => .error .build

def load (s : Sources) : Except SettingsError Settings := do
  let user ← fileLayer s.userFile
  let project ← fileLayer s.projectFile
  let own ← fileLayer s.localFile
  let environment := Item.ofEnvironment s.word s.environment
  let merged := [user, project, own, environment].foldl Item.putLayer (toItems {})
  match ofItems? merged with
  | some settings => settings.validate
  | none => .error .wrongType

/-- The settings, or the defaults if there are none. -/
def loadOrDefault (s : Sources) : Settings :=
  match load s with
  | .ok settings => settings
  | .error _ => {}

end Settings

end AccessPolicy

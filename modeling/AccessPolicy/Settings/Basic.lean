/-! Settings of an engine, and why there are none. -/

namespace AccessPolicy

structure Settings where
  /-- The number of policies from which on they are evaluated in parallel; zero for never. -/
  parallelThreshold : Nat := 64
  /-- Whether decisions are logged. -/
  audit : Bool := true
  maxNestingDepth : Nat := 128
  deriving DecidableEq

inductive SettingsError where
  /-- A document has no reading or a value of the wrong type. -/
  | malformed
  | unreadable
  /-- A document of a layer has no reading. -/
  | build
  /-- A merged value has the wrong type. -/
  | wrongType
  | invalid
  deriving DecidableEq

def SettingsError.message : SettingsError → String
  | .malformed => "Failed to parse TOML config"
  | .unreadable => "Failed to read config file"
  | .build => "Failed to build configuration"
  | .wrongType => "Failed to deserialize configuration"
  | .invalid => "Invalid configuration: parser.max_nesting_depth must be at least 1"

namespace Settings

/-- Settings under which no expression may nest are refused. -/
def validate (s : Settings) : Except SettingsError Settings :=
  if s.maxNestingDepth = 0 then .error .invalid else .ok s

def engineKey : String := "engine"

def parserKey : String := "parser"

def sectionKeys : List String := [engineKey, parserKey]

def thresholdKey : String := "parallel_threshold"

def auditKey : String := "audit"

def depthKey : String := "max_nesting_depth"

/-- The keys of the engine's section, in their order. -/
def engineKeys : List String := [thresholdKey, auditKey]

/-- The keys of the parser's section, in their order. -/
def parserKeys : List String := [depthKey]

end Settings

end AccessPolicy

import AccessPolicy.Decision
import AccessPolicy.Request.Text
import AccessPolicy.Settings.Basic

/-! Engines. A snapshot pairs the loaded policies with the loaded entities and counts the loads. A
load replaces one half of it or fails and leaves it as it is; an evaluation needs both halves. -/

namespace AccessPolicy

structure Snapshot where
  version : Nat := 0
  policies : Option PolicySet := none
  entities : Option Store := none

/-- A half of a snapshot. -/
inductive Half where
  | policies
  | entities
  deriving DecidableEq

def Half.name : Half → String
  | .policies => "policies"
  | .entities => "entities"

inductive EngineError where
  | policies (e : PolicySetError)
  | load (e : StoreError)
  | decode (e : DecodeError)
  | notInitialized (missing : Half)
  | cancelled

def EngineError.message : EngineError → String
  | .policies e => e.message
  | .load e => "failed to load entities: " ++ e.message
  | .decode e => e.message
  | .notInitialized missing => "engine not initialized: no " ++ missing.name ++ " loaded"
  | .cancelled => "evaluation cancelled"

namespace Snapshot

def withPolicies (s : Snapshot) (ps : PolicySet) : Snapshot :=
  { s with version := s.version + 1, policies := some ps }

def withEntities (s : Snapshot) (st : Store) : Snapshot :=
  { s with version := s.version + 1, entities := some st }

/-- Both halves; missing policies are noticed first. -/
def loaded (s : Snapshot) : Except EngineError (PolicySet × Store) :=
  match s.policies, s.entities with
  | none, _ => .error (.notInitialized .policies)
  | some _, none => .error (.notInitialized .entities)
  | some ps, some st => .ok (ps, st)

end Snapshot

/-- What a load brings. -/
inductive Load where
  | policyText (text : String)
  | policySet (ps : PolicySet)
  | entities (records : List Entity)
  | entityText (text : String)

/-- An engine without its snapshot, which it may share with others. -/
structure Engine where
  authorizer : Authorizer := {}
  nestingBound : Nat := defaultNestingBound
  audit : Bool := true
  deriving DecidableEq

namespace Engine

def ofSettings (s : Settings) : Engine :=
  ⟨⟨s.parallelThreshold⟩, s.maxNestingDepth, s.audit⟩

def withoutAudit (e : Engine) : Engine := { e with audit := false }

/-- The snapshot behind a load. -/
def load (e : Engine) (s : Snapshot) : Load → Except EngineError Snapshot
  | .policyText text =>
    match PolicySet.parse e.nestingBound text with
    | .ok ps => .ok (s.withPolicies ps)
    | .error err => .error (.policies err)
  | .policySet ps => .ok (s.withPolicies ps)
  | .entities records =>
    match Store.load records with
    | .ok st => .ok (s.withEntities st)
    | .error err => .error (.load err)
  | .entityText text =>
    match Entity.listOfJsonText text with
    | .ok records =>
      match Store.load records with
      | .ok st => .ok (s.withEntities st)
      | .error err => .error (.load err)
    | .error err => .error (.decode err)

def evaluate (e : Engine) (s : Snapshot) (r : Request) : Except EngineError Response := do
  let (ps, st) ← s.loaded
  .ok (e.authorizer.authorize ps st r)

def isAuthorized (e : Engine) (s : Snapshot) (r : Request) : Except EngineError Bool := do
  let response ← e.evaluate s r
  .ok (decide (response.decision = .allow))

/-- Decodes a request and evaluates it. -/
def evaluateText (e : Engine) (s : Snapshot) (t : RequestText) : Except EngineError Response :=
  match t.toRequest with
  | .ok r => e.evaluate s r
  | .error err => .error (.decode err)

def isAuthorizedText (e : Engine) (s : Snapshot) (t : RequestText) : Except EngineError Bool := do
  let response ← e.evaluateText s t
  .ok (decide (response.decision = .allow))

/-- Evaluates a request while looking at a flag before each policy. -/
def evaluateUnless (e : Engine) (cancelled : Bool) (s : Snapshot) (r : Request) :
    Except EngineError Response := do
  let (ps, st) ← s.loaded
  match e.authorizer.authorizeUnless cancelled ps st r with
  | some response => .ok response
  | none => .error .cancelled

end Engine

end AccessPolicy

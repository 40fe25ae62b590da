import AccessPolicy.Engine.Basic

/-! Sessions: named engines that are clones of one and share its snapshot, and snapshots that were
pinned under names. A pinned snapshot stays as it was whatever is loaded later. -/

namespace AccessPolicy

inductive Command where
  | clone (name : String)
  | withoutAudit
  | pin (name : String)
  | load (l : Load)
  | evaluate (r : Request)
  | isAuthorized (r : Request)
  | evaluateText (t : RequestText)
  | isAuthorizedText (t : RequestText)
  | evaluateUnless (cancelled : Bool) (r : Request)
  /-- Evaluates in the snapshot that was pinned under a name. -/
  | evaluatePinned (name : String) (r : Request)
  | snapshot

inductive Answer where
  | done
  | version (n : Nat)
  | response (r : Response)
  | allowed (b : Bool)
  | snapshot (s : Snapshot)

structure Session where
  snapshot : Snapshot := {}
  engines : List (String × Engine)
  pins : List (String × Snapshot) := []

namespace Session

/-- A session with one engine that has nothing loaded. -/
def start (name : String) (settings : Settings) : Session :=
  { engines := [(name, Engine.ofSettings settings)] }

/-- The engine of a name; a name without one stands for an engine with default settings. -/
def engine (s : Session) (name : String) : Engine := (s.engines.lookup name).getD {}

/-- The snapshot pinned under a name; a name without one stands for the empty snapshot. -/
def pinned (s : Session) (name : String) : Snapshot := (s.pins.lookup name).getD {}

/-- Runs a command on the engine of a name. A command that fails changes nothing. -/
def step (s : Session) (on : String) (c : Command) : Session × Except EngineError Answer :=
  let e := s.engine on
  match c with
  | .clone name => ({ s with engines := (name, e) :: s.engines }, .ok .done)
  | .withoutAudit => ({ s with engines := (on, e.withoutAudit) :: s.engines }, .ok .done)
  | .pin name =>
    ({ s with pins := (name, s.snapshot) :: s.pins }, .ok (.version s.snapshot.version))
  | .load l =>
    match e.load s.snapshot l with
    | .ok snapshot => ({ s with snapshot := snapshot }, .ok .done)
    | .error err => (s, .error err)
  | .evaluate r => (s, (e.evaluate s.snapshot r).map .response)
  | .isAuthorized r => (s, (e.isAuthorized s.snapshot r).map .allowed)
  | .evaluateText t => (s, (e.evaluateText s.snapshot t).map .response)
  | .isAuthorizedText t => (s, (e.isAuthorizedText s.snapshot t).map .allowed)
  | .evaluateUnless cancelled r =>
    (s, (e.evaluateUnless cancelled s.snapshot r).map .response)
  | .evaluatePinned name r => (s, (e.evaluate (s.pinned name) r).map .response)
  | .snapshot => (s, .ok (.snapshot s.snapshot))

end Session

end AccessPolicy

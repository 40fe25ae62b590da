import AccessPolicy.Engine.Session
import Mathlib.Data.List.Induction

/-! # What a session remembers

A run of commands leaves events behind: the engine that ran each command and the
answer it gave. The snapshot is what the events say (`run_snapshot`): the
policies and the entities of the last loads that succeeded and the number of all
that did, through whichever clone they were issued. Evaluations answer from these
two halves, and a pinned snapshot answers from the halves of its own time
(`run_history`). -/

namespace AccessPolicy

/-- A command that was run, the engine it ran on and the answer it gave. -/
structure Event where
  engine : Engine
  command : Command
  answer : Except EngineError Answer

namespace Event

/-- The policies of a load of policies that succeeded. -/
def policies? (ev : Event) : Option PolicySet :=
  match ev.command, ev.answer with
  | .load (.policyText text), .ok _ => (PolicySet.parse ev.engine.nestingBound text).toOption
  | .load (.policySet ps), .ok _ => some ps
  | _, _ => none

/-- The entities of a load of entities that succeeded. -/
def entities? (ev : Event) : Option Store :=
  match ev.command, ev.answer with
  | .load (.entities records), .ok _ => (Store.load records).toOption
  | .load (.entityText text), .ok _ =>
    (Entity.listOfJsonText text).toOption.bind fun records => (Store.load records).toOption
  | _, _ => none

/-- Whether it is a load, of either kind, that succeeded. -/
def isLoad (ev : Event) : Bool :=
  match ev.command, ev.answer with
  | .load _, .ok _ => true
  | _, _ => false

end Event

/-- The halves and the version that events leave behind. -/
def Snapshot.ofEvents (evs : List Event) : Snapshot where
  version := evs.countP Event.isLoad
  policies := (evs.filterMap Event.policies?).getLast?
  entities := (evs.filterMap Event.entities?).getLast?

/-- The snapshot behind an event. -/
def Snapshot.after (s : Snapshot) (ev : Event) : Snapshot where
  version := s.version + if ev.isLoad then 1 else 0
  policies := ev.policies?.or s.policies
  entities := ev.entities?.or s.entities

/-! ## Loads -/

/-- What a load makes of a snapshot. A text has to be read and records have to load; there is
nothing else that a load can fail for. -/
inductive Engine.Brings (e : Engine) : Load → (Snapshot → Snapshot) → Prop
  | policyText {text : String} {ps : PolicySet} : PolicySet.parse e.nestingBound text = .ok ps →
    Brings e (.policyText text) fun s => s.withPolicies ps
  | policySet (ps : PolicySet) : Brings e (.policySet ps) fun s => s.withPolicies ps
  | entities {records : List Entity} {st : Store} : Store.load records = .ok st →
    Brings e (.entities records) fun s => s.withEntities st
  | entityText {text : String} {records : List Entity} {st : Store} :
    Entity.listOfJsonText text = .ok records → Store.load records = .ok st →
    Brings e (.entityText text) fun s => s.withEntities st

namespace Engine

variable {e : Engine} {s next : Snapshot} {l : Load}

theorem load_eq_ok_iff : e.load s l = .ok next ↔ ∃ f, e.Brings l f ∧ next = f s := by
  constructor
  · intro h
    cases l with
    | policyText text =>
      simp only [load] at h
      split at h
      · rename_i ps hps
        exact ⟨_, .policyText hps, (Except.ok.inj h).symm⟩
      · cases h
    | policySet ps => exact ⟨_, .policySet ps, (Except.ok.inj h).symm⟩
    | entities records =>
      simp only [load] at h
      split at h
      · rename_i st hst
        exact ⟨_, .entities hst, (Except.ok.inj h).symm⟩
      · cases h
    | entityText text =>
      simp only [load] at h
      split at h
      · rename_i records hrecords
        split at h
        · rename_i st hst
          exact ⟨_, .entityText hrecords hst, (Except.ok.inj h).symm⟩
        · cases h
      · cases h
  · rintro ⟨f, hf, rfl⟩
    cases hf with
    | policyText hps => simp only [load, hps]
    | policySet ps => rfl
    | entities hst => simp only [load, hst]
    | entityText hrecords hst => simp only [load, hrecords, hst]

/-- What a load brings is what its event leaves behind. -/
theorem Brings.eq_after {f : Snapshot → Snapshot} (h : e.Brings l f) (s : Snapshot) (a : Answer) :
    f s = s.after ⟨e, .load l, .ok a⟩ := by
  cases h with
  | policyText hps =>
    simp [Snapshot.after, Snapshot.withPolicies, Event.policies?, Event.entities?, Event.isLoad,
      hps, Except.toOption]
  | policySet ps =>
    simp [Snapshot.after, Snapshot.withPolicies, Event.policies?, Event.entities?, Event.isLoad]
  | entities hst =>
    simp [Snapshot.after, Snapshot.withEntities, Event.policies?, Event.entities?, Event.isLoad,
      hst, Except.toOption]
  | entityText hrecords hst =>
    simp [Snapshot.after, Snapshot.withEntities, Event.policies?, Event.entities?, Event.isLoad,
      hrecords, hst, Except.toOption]

end Engine

/-! ## Histories -/

/-- What is no load that succeeded leaves the snapshot as it is. -/
theorem Snapshot.after_eq_self {s : Snapshot} {ev : Event} (h : ev.isLoad = false) :
    s.after ev = s := by
  obtain ⟨e, c, a⟩ := ev
  cases c with
  | load l =>
    cases a with
    | ok a => cases h
    | error err => cases l <;> rfl
  | _ => rfl

theorem Snapshot.ofEvents_append_singleton (evs : List Event) (ev : Event) :
    ofEvents (evs ++ [ev]) = (ofEvents evs).after ev := by
  have hlast : ∀ {α : Type} (f : Event → Option α),
      ((evs ++ [ev]).filterMap f).getLast? = (f ev).or (evs.filterMap f).getLast? := by
    intro α f
    rw [List.filterMap_append, List.getLast?_append]
    cases h : f ev <;> simp [h]
  simp only [ofEvents, after, hlast, List.countP_append, List.countP_singleton]

/-- Moving on event by event gives the snapshot of the whole history. -/
theorem Snapshot.foldl_after (evs : List Event) : evs.foldl after {} = ofEvents evs := by
  induction evs using List.reverseRecOn with
  | nil => rfl
  | append_singleton evs ev ih =>
    rw [List.foldl_append, ih, ofEvents_append_singleton]
    rfl

namespace Session

/-- Runs commands in order, each on the engine of a name. -/
def run (s : Session) : List (String × Command) → Session × List Event
  | [] => (s, [])
  | (on, c) :: cs =>
    let (next, answer) := s.step on c
    let (last, evs) := next.run cs
    (last, ⟨s.engine on, c, answer⟩ :: evs)

/-- The session behind a run. -/
def final (s : Session) (cs : List (String × Command)) : Session := (s.run cs).1

/-- What happened in a run. -/
def events (s : Session) (cs : List (String × Command)) : List Event := (s.run cs).2

/-- What happens when a command is run. -/
def event (s : Session) (on : String) (c : Command) : Event := ⟨s.engine on, c, (s.step on c).2⟩

variable {s : Session} {on name : String} {c : Command} {cs ds : List (String × Command)}

@[simp] theorem final_nil : s.final [] = s := rfl

@[simp] theorem final_cons : s.final ((on, c) :: cs) = (s.step on c).1.final cs := rfl

@[simp] theorem events_nil : s.events [] = [] := rfl

@[simp] theorem events_cons :
    s.events ((on, c) :: cs) = s.event on c :: (s.step on c).1.events cs := rfl

theorem final_append : s.final (cs ++ ds) = (s.final cs).final ds := by
  induction cs generalizing s with
  | nil => rfl
  | cons d cs ih => exact ih

/-! ## One step -/

theorem step_load_ok {l : Load} {next : Snapshot} (h : (s.engine on).load s.snapshot l = .ok next) :
    s.step on (.load l) = ({ s with snapshot := next }, .ok .done) := by
  simp only [step, h]

theorem step_load_error {l : Load} {err : EngineError}
    (h : (s.engine on).load s.snapshot l = .error err) : s.step on (.load l) = (s, .error err) := by
  simp only [step, h]

/-- A load succeeds exactly when it brings something. -/
theorem step_load_ok_iff {l : Load} :
    (s.step on (.load l)).2 = .ok .done ↔ ∃ f, (s.engine on).Brings l f := by
  cases hl : (s.engine on).load s.snapshot l with
  | ok next =>
    obtain ⟨f, hf, -⟩ := Engine.load_eq_ok_iff.1 hl
    rw [step_load_ok hl]
    exact iff_of_true rfl ⟨f, hf⟩
  | error err =>
    have hnone : ¬ ∃ f, (s.engine on).Brings l f := by
      rintro ⟨f, hf⟩
      cases hl.symm.trans (Engine.load_eq_ok_iff.2 ⟨f, hf, rfl⟩)
    rw [step_load_error hl]
    exact iff_of_false nofun hnone

/-- A load that fails changes nothing. -/
theorem step_eq_of_load_error {l : Load} {err : EngineError}
    (h : (s.step on (.load l)).2 = .error err) : (s.step on (.load l)).1 = s := by
  cases hl : (s.engine on).load s.snapshot l with
  | error err => rw [step_load_error hl]
  | ok next =>
    rw [step_load_ok hl] at h
    cases h

/-- Every step moves the snapshot by what happened in it. -/
theorem step_snapshot (s : Session) (on : String) (c : Command) :
    (s.step on c).1.snapshot = s.snapshot.after (s.event on c) := by
  cases c with
  | load l =>
    cases hl : (s.engine on).load s.snapshot l with
    | ok next =>
      obtain ⟨f, hf, rfl⟩ := Engine.load_eq_ok_iff.1 hl
      rw [event, step_load_ok hl]
      exact hf.eq_after s.snapshot .done
    | error err =>
      rw [event, step_load_error hl]
      exact (Snapshot.after_eq_self rfl).symm
  | _ => exact (Snapshot.after_eq_self rfl).symm

/-! ## A run -/

theorem final_snapshot (s : Session) (cs : List (String × Command)) :
    (s.final cs).snapshot = (s.events cs).foldl Snapshot.after s.snapshot := by
  induction cs generalizing s with
  | nil => rfl
  | cons c cs ih =>
    obtain ⟨on, c⟩ := c
    rw [final_cons, ih, step_snapshot, events_cons, List.foldl_cons]

/-- The snapshot of a run is that of its history. -/
theorem run_snapshot (first : String) (settings : Settings) (cs : List (String × Command)) :
    ((start first settings).final cs).snapshot =
      Snapshot.ofEvents ((start first settings).events cs) := by
  rw [final_snapshot, ← Snapshot.foldl_after]
  rfl

/-! ## Evaluations -/

/-- A command that evaluates a request in the active snapshot, and what it makes of a loaded
pair of policies and entities: the response of the authorizer, or whether that allows. -/
inductive Evaluates (e : Engine) : Command → (PolicySet → Store → Except EngineError Answer) → Prop
  | evaluate (r : Request) :
    Evaluates e (.evaluate r) fun ps st => .ok (.response (e.authorizer.authorize ps st r))
  | isAuthorized (r : Request) :
    Evaluates e (.isAuthorized r) fun ps st =>
      .ok (.allowed (decide ((e.authorizer.authorize ps st r).decision = .allow)))
  | evaluateText {t : RequestText} {r : Request} : t.toRequest = .ok r →
    Evaluates e (.evaluateText t) fun ps st => .ok (.response (e.authorizer.authorize ps st r))
  | isAuthorizedText {t : RequestText} {r : Request} : t.toRequest = .ok r →
    Evaluates e (.isAuthorizedText t) fun ps st =>
      .ok (.allowed (decide ((e.authorizer.authorize ps st r).decision = .allow)))
  | evaluateUnless (cancelled : Bool) (r : Request) :
    Evaluates e (.evaluateUnless cancelled r) fun ps st =>
      match e.authorizer.authorizeUnless cancelled ps st r with
      | some response => .ok (.response response)
      | none => .error .cancelled

end Session

/-- An answer from both halves of a snapshot; without policies, or else without entities, it is an
error that says what is missing. -/
def Snapshot.answer (s : Snapshot) (f : PolicySet → Store → Except EngineError Answer) :
    Except EngineError Answer :=
  match s.policies, s.entities with
  | none, _ => .error (.notInitialized .policies)
  | some _, none => .error (.notInitialized .entities)
  | some ps, some st => f ps st

theorem Engine.map_evaluate (e : Engine) (s : Snapshot) (r : Request) :
    (e.evaluate s r).map Answer.response =
      s.answer fun ps st => .ok (.response (e.authorizer.authorize ps st r)) := by
  obtain ⟨version, policies, entities⟩ := s
  cases policies with
  | none => rfl
  | some ps => cases entities <;> rfl

theorem Engine.map_isAuthorized (e : Engine) (s : Snapshot) (r : Request) :
    (e.isAuthorized s r).map Answer.allowed =
      s.answer fun ps st =>
        .ok (.allowed (decide ((e.authorizer.authorize ps st r).decision = .allow))) := by
  obtain ⟨version, policies, entities⟩ := s
  cases policies with
  | none => rfl
  | some ps => cases entities <;> rfl

theorem Engine.map_evaluateUnless (e : Engine) (cancelled : Bool) (s : Snapshot) (r : Request) :
    (e.evaluateUnless cancelled s r).map Answer.response =
      s.answer fun ps st =>
        match e.authorizer.authorizeUnless cancelled ps st r with
        | some response => .ok (.response response)
        | none => .error .cancelled := by
  obtain ⟨version, policies, entities⟩ := s
  cases policies with
  | none => rfl
  | some ps =>
    cases entities with
    | none => rfl
    | some st =>
      simp only [evaluateUnless, Snapshot.loaded, Snapshot.answer, bind, Except.bind]
      cases e.authorizer.authorizeUnless cancelled ps st r <;> rfl

namespace Session

theorem step_evaluates {s : Session} {on : String} {c : Command}
    {f : PolicySet → Store → Except EngineError Answer} (h : Evaluates (s.engine on) c f) :
    (s.step on c).2 = s.snapshot.answer f := by
  cases h with
  | evaluate r => exact Engine.map_evaluate _ _ r
  | isAuthorized r => exact Engine.map_isAuthorized _ _ r
  | evaluateText ht =>
    simp only [step, Engine.evaluateText, ht]
    exact Engine.map_evaluate _ _ _
  | isAuthorizedText ht =>
    simp only [step, Engine.isAuthorizedText, Engine.evaluateText, ht]
    exact Engine.map_isAuthorized _ _ _
  | evaluateUnless cancelled r => exact Engine.map_evaluateUnless _ cancelled _ r

/-! ## Pinned snapshots -/

theorem step_pinned {s : Session} {on name : String} {c : Command} (h : c ≠ .pin name) :
    (s.step on c).1.pinned name = s.pinned name := by
  cases c with
  | pin name' =>
    have hne : (name == name') = false := by
      simpa using fun hn => h (congrArg Command.pin hn.symm)
    simp [step, pinned, List.lookup_cons, hne]
  | load l =>
    cases hl : (s.engine on).load s.snapshot l with
    | ok next => rw [step_load_ok hl]; rfl
    | error err => rw [step_load_error hl]
  | _ => rfl

theorem final_pinned {s : Session} {name : String} {cs : List (String × Command)}
    (h : ∀ c ∈ cs, c.2 ≠ .pin name) : (s.final cs).pinned name = s.pinned name := by
  induction cs generalizing s with
  | nil => rfl
  | cons c cs ih =>
    obtain ⟨hc, hcs⟩ := List.forall_mem_cons.mp h
    obtain ⟨on, c⟩ := c
    rw [final_cons, ih hcs, step_pinned hc]

/-- **A session answers from its history.** Behind any run of commands, on any clones of the
first engine, the snapshot is what the loads that succeeded have left. A load succeeds
exactly when its text is read and its records load, and one that fails changes nothing. An
evaluation answers from that snapshot, and one in a pinned snapshot from what the history was
when it was pinned. -/
theorem run_history (first : String) (settings : Settings) (cs : List (String × Command)) :
    let start := Session.start first settings
    let s := start.final cs
    (∀ on, (s.step on .snapshot).2 = .ok (.snapshot (.ofEvents (start.events cs)))) ∧
      (∀ on l, (s.step on (.load l)).2 = .ok .done ↔ ∃ f, (s.engine on).Brings l f) ∧
      (∀ on l err, (s.step on (.load l)).2 = .error err → (s.step on (.load l)).1 = s) ∧
      (∀ on c f, Evaluates (s.engine on) c f →
        (s.step on c).2 = (Snapshot.ofEvents (start.events cs)).answer f) ∧
      ∀ before pinner name after, cs = before ++ (pinner, .pin name) :: after →
        (∀ c ∈ after, c.2 ≠ .pin name) → ∀ on r,
          (s.step on (.evaluatePinned name r)).2 =
            (Snapshot.ofEvents (start.events before)).answer fun ps st =>
              .ok (.response ((s.engine on).authorizer.authorize ps st r)) := by
  intro start s
  have hs : s.snapshot = Snapshot.ofEvents (start.events cs) := run_snapshot first settings cs
  refine ⟨fun on => ?_, fun on l => step_load_ok_iff, fun on l err h => step_eq_of_load_error h,
    fun on c f h => ?_, ?_⟩
  · rw [← hs]
    rfl
  · rw [← hs]
    exact step_evaluates h
  · rintro before pinner name after rfl hafter on r
    have hpin : s.pinned name = Snapshot.ofEvents (start.events before) := by
      rw [← run_snapshot, show s = _ from final_append, final_cons, final_pinned hafter]
      simp [step, pinned, start]
    rw [← hpin]
    exact Engine.map_evaluate _ _ r

end Session

end AccessPolicy

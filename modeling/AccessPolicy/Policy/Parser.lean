import AccessPolicy.Expr.Parser
import AccessPolicy.Policy.Basic

/-! Reading policies: annotations, an effect, a scope of three clauses, conditions and a closing
semicolon. The ids of the policies count them from zero. -/

namespace AccessPolicy

namespace Parse

/-- The three clauses of a scope. -/
inductive Slot where
  | principal
  | action
  | resource
  deriving DecidableEq

def Slot.word : Slot → String
  | .principal => "principal"
  | .action => "action"
  | .resource => "resource"

/-- Annotations behind those of `acc`; one without a value has the empty string. -/
def annotations (acc : Annotations) (ts : List Kind) : Step Annotations (ts.length + 1) :=
  match Taken.accept? (.symbol .at) ts with
  | none => .ok (.nothing acc)
  | some ⟨_, ts₁, h₁⟩ => do
    let ⟨key, ts₂, h₂⟩ ← ident .annotationName ts₁
    match Taken.accept? (.symbol .leftParen) ts₂ with
    | some ⟨_, ts₃, h₃⟩ => do
      let ⟨value, ts₄, h₄⟩ ← string .annotationValue ts₃
      let ⟨_, ts₅, h₅⟩ ← symbol .rightParen ts₄
      let notes ← annotations (acc.insert key value) ts₅
      .ok (((((notes.optionalAfter h₅).after h₄).after h₃).after h₂).after h₁).wider
    | none => do
      let notes ← annotations (acc.insert key "") ts₂
      .ok ((notes.optionalAfter h₂).after h₁).wider
termination_by ts.length
decreasing_by all_goals omega

def effect : (ts : List Kind) → Step Effect ts.length
  | .ident "permit" :: _ => .ok (.one .permit)
  | .ident "forbid" :: _ => .ok (.one .forbid)
  | ts => expected .effect ts

/-- Entity references between commas up to a closing bracket, which may follow a comma. -/
def uids (ts : List Kind) : Step (List Uid) ts.length :=
  match Taken.accept? (.symbol .rightBracket) ts with
  | some r => .ok (r.map fun _ => [])
  | none => do
    let ⟨u, ts₁, h₁⟩ ← uid ts
    match Taken.accept? (.symbol .rightBracket) ts₁ with
    | some r => .ok ((r.map fun _ => [u]).after h₁)
    | none => do
      let ⟨_, ts₂, h₂⟩ ← expect (.symbol .comma) (.commaOr .rightBracket) ts₁
      let us ← uids ts₂
      .ok (((us.map (u :: ·)).after h₂).after h₁)
termination_by ts.length
decreasing_by omega

/-- The target of `in`; a list is one for the action only. -/
def scopeTarget (slot : Slot) (ts : List Kind) : Step ScopeConstraint ts.length :=
  match if slot = .action then Taken.accept? (.symbol .leftBracket) ts else none with
  | some ⟨_, rest, h⟩ => do
    let us ← uids rest
    .ok ((us.map .withinAny).after h)
  | none => do
    let u ← uid ts
    .ok (u.map .within)

/-- Goes on behind the word of a slot. -/
def scopeConstraint (slot : Slot) (ts : List Kind) : Step ScopeConstraint (ts.length + 1) :=
  match ts with
  | .symbol .equalEqual :: ts => do
    let u ← uid ts
    .ok (u.map .equal).wider.wider
  | .ident "in" :: ts => do
    let c ← scopeTarget slot ts
    .ok c.wider.wider
  | .ident "is" :: ts => do
    let ⟨entityType, ts₁, h₁⟩ ← path ts
    match Taken.accept? (.ident "in") ts₁ with
    | some ⟨_, ts₂, h₂⟩ => do
      let u ← uid ts₂
      .ok (((u.map (.isIn entityType)).after h₂).after h₁).wider.wider
    | none => .ok (Taken.mk (.is entityType) ts₁ h₁).wider.wider
  | _ => .ok (.nothing .any)

def scopeClause (slot : Slot) (ts : List Kind) : Step ScopeConstraint ts.length := do
  let ⟨_, rest, h⟩ ← keyword slot.word ts
  let c ← scopeConstraint slot rest
  .ok (c.optionalAfter h)

def scope (ts : List Kind) : Step Scope ts.length := do
  let ⟨principal, ts₁, h₁⟩ ← scopeClause .principal ts
  let ⟨_, ts₂, h₂⟩ ← symbol .comma ts₁
  let ⟨action, ts₃, h₃⟩ ← scopeClause .action ts₂
  let ⟨_, ts₄, h₄⟩ ← symbol .comma ts₃
  let resource ← scopeClause .resource ts₄
  .ok (((((resource.map (⟨principal, action, ·⟩)).after h₄).after h₃).after h₂).after h₁)

def conditionKind? : Kind → Option ConditionKind
  | .ident "when" => some .when
  | .ident "unless" => some .unless
  | _ => none

def conditions (bound : Nat) (ts : List Kind) : Step (List Condition) (ts.length + 1) :=
  match ts with
  | [] => .ok (.nothing [])
  | k :: ts =>
    match conditionKind? k with
    | none => .ok (.nothing [])
    | some kind => do
      let ⟨_, ts₁, h₁⟩ ← symbol .leftBrace ts
      let ⟨body, ts₂, h₂⟩ ← expr bound 0 ts₁
      let ⟨_, ts₃, h₃⟩ ← symbol .rightBrace ts₂
      let cs ← conditions bound ts₃
      .ok ((((cs.map (⟨kind, body⟩ :: ·)).optionalAfter h₃).after h₂).after h₁).wider.wider
termination_by ts.length
decreasing_by simp only [List.length_cons]; omega

def policy (bound index : Nat) (ts : List Kind) : Step Policy ts.length := do
  let ⟨notes, ts₁, h₁⟩ ← annotations {} ts
  let ⟨eff, ts₂, h₂⟩ ← effect ts₁
  let ⟨_, ts₃, h₃⟩ ← symbol .leftParen ts₂
  let ⟨sc, ts₄, h₄⟩ ← scope ts₃
  let ⟨_, ts₅, h₅⟩ ← symbol .rightParen ts₄
  let ⟨cs, ts₆, h₆⟩ ← conditions bound ts₅
  let close ← symbol .semicolon ts₆
  let p : Policy := ⟨.ofIndex index, eff, sc, cs, notes⟩
  let body := ((((close.map fun _ => p).after h₆).optionalAfter h₅).after h₄).after h₃
  .ok ((body.after h₂).afterOptional h₁)

/-- All policies up to the end; `index` were read before them. -/
def policies (bound index : Nat) (ts : List Kind) : Except Failure (List Policy) :=
  if ts = [] then .ok []
  else do
    let ⟨p, rest, _⟩ ← policy bound index ts
    let ps ← policies bound (index + 1) rest
    .ok (p :: ps)
termination_by ts.length
decreasing_by omega

end Parse

/-- Reads a text of policies in which expressions nest no deeper than `bound`. -/
def Policy.parseAll (bound : Nat) (text : String) : Except ParseError (List Policy) :=
  Parse.run (Parse.policies bound 0) text

end AccessPolicy

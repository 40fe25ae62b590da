import AccessPolicy.Uid.Basic
import AccessPolicy.Parse.Basic

/-! Reading type names and entity references. -/

namespace AccessPolicy

namespace Parse

/-- The name whose segments are given. -/
def joinPath (segments : List String) : String := "::".intercalate segments

/-- The segments behind the first one of a type name. The separator belongs to the name only if
another segment follows it. -/
def segments : (ts : List Kind) → Taken Kind (List String) (ts.length + 1)
  | .symbol .colonColon :: .ident name :: ts => ((segments ts).map (name :: ·)).wider.wider
  | _ => .nothing []

def path : (ts : List Kind) → Step String ts.length
  | .ident name :: ts => .ok ((segments ts).map fun l => joinPath (name :: l))
  | ts => expected .typeName ts

def uid (ts : List Kind) : Step Uid ts.length :=
  match ts with
  | .ident name :: rest => do
    let ⟨entityType, ts₁, h₁⟩ ← path (.ident name :: rest)
    let ⟨_, ts₂, h₂⟩ ← expect (.symbol .colonColon) .referenceColons ts₁
    let id ← string .entityId ts₂
    .ok (((id.map (⟨entityType, ·⟩)).after h₂).after h₁)
  | ts => expected .entityReference ts

end Parse

/-- Reads a text that is one entity reference. -/
def Uid.parse (text : String) : Except ParseError Uid :=
  Parse.run (fun ts => do
    let ⟨u, rest, _⟩ ← Parse.uid ts
    Parse.endOfInput rest
    .ok u) text

end AccessPolicy

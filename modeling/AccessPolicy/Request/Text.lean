import AccessPolicy.Json.Decode
import AccessPolicy.Request.Basic
import AccessPolicy.Text.Blank

/-! Requests written as texts: the references as `Type::"id"` and the context as the text of a
JSON object, blank for none. Such a request can itself be a JSON object with these texts under
their names, or an array of them. -/

namespace AccessPolicy

structure RequestText where
  principal : String
  action : String
  resource : String
  context : String := ""
  deriving DecidableEq

/-- The context that a text writes; none is written as blank text or `null`. -/
def Request.contextOfText (text : String) : Except DecodeError (List (String × Value)) :=
  if text.toList.all Text.isBlank then .ok []
  else
    Decode.text
      (fun
        | .object members => Decode.record members
        | .null => .ok []
        | _ => .error (.json .contextNotObject)) text

namespace RequestText

/-- The context is decoded first, then the references in order. -/
def toRequest (t : RequestText) : Except DecodeError Request := do
  let context ← Request.contextOfText t.context
  let principal ← Decode.uidText t.principal
  let action ← Decode.uidText t.action
  let resource ← Decode.uidText t.resource
  .ok ⟨principal, action, resource, context⟩

/-- The names of the texts of a request. -/
def names : List String := ["principal", "action", "resource", "context"]

def asString? : Json → Option String
  | .string s => some s
  | _ => none

/-- The texts of an array of three or four. -/
def ofElements? : List Json → Option RequestText
  | [p, a, r] => do some ⟨← asString? p, ← asString? a, ← asString? r, ""⟩
  | [p, a, r, c] => do some ⟨← asString? p, ← asString? a, ← asString? r, ← asString? c⟩
  | _ => none

/-- The text under a name that occurs once. -/
def member? (members : List (String × Json)) (name : String) : Option String :=
  match members.filter fun m => m.1 == name with
  | [m] => asString? m.2
  | _ => none

/-- The texts of an object, of which the context may be left out; other members do not count. -/
def ofMembers? (members : List (String × Json)) : Option RequestText := do
  let principal ← member? members "principal"
  let action ← member? members "action"
  let resource ← member? members "resource"
  if (members.filter fun m => m.1 == "context").isEmpty then
    some ⟨principal, action, resource, ""⟩
  else do
    let context ← member? members "context"
    some ⟨principal, action, resource, context⟩

/-- Reads an object or an array; of members with other names only the grammar is checked. -/
def ofJsonText? (text : String) : Option RequestText := do
  let ts ← Json.tokens text.toList
  match ts with
  | .beginObject :: ts => do
    let ⟨members, rest, _⟩ ← Json.members (.strict Json.maxLevels)
      (fun name => if name ∈ names then .strict Json.maxLevels else .lenient) ts
    if rest.isEmpty then ofMembers? members else none
  | ts => do
    let ⟨j, rest, _⟩ ← Json.value (.strict Json.maxLevels) ts
    match j with
    | .array items => if rest.isEmpty then ofElements? items else none
    | _ => none

end RequestText

end AccessPolicy

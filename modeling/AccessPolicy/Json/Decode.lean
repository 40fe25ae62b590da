import AccessPolicy.Entity
import AccessPolicy.Json.Parser
import AccessPolicy.Uid.Parser

/-! Entity references, values and entities from JSON. A reference is `{"type", "id"}`, the text
`Type::"id"`, or one of these under the key `__entity`. In a value an object with that key is a
reference and one with the key `__extn` is refused; any other object is a record. -/

namespace AccessPolicy

/-- What a JSON document gets wrong. -/
inductive JsonFault where
  | malformed
  | entitiesNotArray
  | entityNotObject
  | uidMissing
  | attrsNotObject (uid : Uid)
  | parentsNotArray (uid : Uid)
  | uidIncomplete (j : Json)
  | uidShape (j : Json)
  | notLong (n : Number)
  | extension
  | nullValue
  | contextNotObject

def JsonFault.message : JsonFault → String
  | .malformed => "<syntax>"
  | .entitiesNotArray => "entity set must be a JSON array"
  | .entityNotObject => "entity record must be a JSON object"
  | .uidMissing => "entity record is missing `uid`"
  | .attrsNotObject u => "`attrs` of " ++ u.text ++ " must be an object"
  | .parentsNotArray u => "`parents` of " ++ u.text ++ " must be an array"
  | .uidIncomplete j => "entity uid needs string `type` and `id`, got " ++ j.text
  | .uidShape j => "invalid entity uid " ++ j.text
  | .notLong n => "number " ++ n.text ++ " is not a 64-bit integer"
  | .extension => "extension values are not supported"
  | .nullValue => "null is not a valid attribute value"
  | .contextNotObject => "request context must be a JSON object"

inductive DecodeError where
  | json (fault : JsonFault)
  | invalidUid (text : String)

def DecodeError.message : DecodeError → String
  | .json fault => "malformed JSON: " ++ fault.message
  | .invalidUid text => "invalid entity uid `" ++ text ++ "`"

namespace Decode

def entityKey : String := "__entity"

def extensionKey : String := "__extn"

/-- A reference written as `Type::"id"`. -/
def uidText (text : String) : Except DecodeError Uid :=
  match Uid.parse text with
  | .ok u => .ok u
  | .error _ => .error (.invalidUid text)

def stringField? (members : List (String × Json)) (key : String) : Option String :=
  match Fields.find? members key with
  | some (.string s) => some s
  | _ => none

mutual

def uid : Json → Except DecodeError Uid
  | .string text => uidText text
  | .object members =>
    match wrappedUid? members with
    | some r => r
    | none =>
      match stringField? members "type", stringField? members "id" with
      | some entityType, some id => .ok ⟨entityType, id⟩
      | _, _ => .error (.json (.uidIncomplete (.object members)))
  | j => .error (.json (.uidShape j))

/-- The reference under the first `__entity` key, if there is one. -/
def wrappedUid? : List (String × Json) → Option (Except DecodeError Uid)
  | [] => none
  | (key, j) :: members => if key = entityKey then some (uid j) else wrappedUid? members

end

theorem wrappedUid?_eq (members : List (String × Json)) :
    wrappedUid? members = (Fields.find? members entityKey).map uid := by
  induction members with
  | nil => simp [wrappedUid?, Fields.find?]
  | cons m members ih =>
    obtain ⟨key, j⟩ := m
    rw [wrappedUid?, ih]
    by_cases h : key = entityKey
    · simp [Fields.find?, h]
    · have h' : (entityKey == key) = false := by simpa using fun e => h e.symm
      simp [Fields.find?, h, List.lookup_cons, h']

mutual

def value : Json → Except DecodeError Value
  | .null => .error (.json .nullValue)
  | .bool b => .ok (.bool b)
  | .number (.integer n) =>
    if InLongRange n then .ok (.long n) else .error (.json (.notLong (.integer n)))
  | .number n => .error (.json (.notLong n))
  | .string s => .ok (.string s)
  | .array items => do
    let vs ← values items
    .ok (Value.ofItems vs)
  | .object members =>
    match Fields.find? members entityKey with
    | some j => (uid j).map Value.entity
    | none =>
      if (Fields.find? members extensionKey).isSome then .error (.json .extension)
      else do
        let fs ← fields members
        .ok (Value.ofFields fs)

def values : List Json → Except DecodeError (List Value)
  | [] => .ok []
  | j :: js => do
    let v ← value j
    let vs ← values js
    .ok (v :: vs)

def fields : List (String × Json) → Except DecodeError (List (String × Value))
  | [] => .ok []
  | (key, j) :: members => do
    let v ← value j
    let fs ← fields members
    .ok ((key, v) :: fs)

end

/-- The members of an object as the fields of a record; here no key is special. -/
def record (members : List (String × Json)) : Except DecodeError (List (String × Value)) :=
  (fields members).map Fields.ofList

/-- The attributes of the entity `u`; none are written as `null` or left out. -/
def attrs (u : Uid) : Option Json → Except DecodeError (List (String × Value))
  | none => .ok []
  | some .null => .ok []
  | some (.object members) => record members
  | some _ => .error (.json (.attrsNotObject u))

/-- The parents of the entity `u`; none are written as `null` or left out. -/
def parents (u : Uid) : Option Json → Except DecodeError (List Uid)
  | none => .ok []
  | some .null => .ok []
  | some (.array items) => items.mapM uid
  | some _ => .error (.json (.parentsNotArray u))

def entity : Json → Except DecodeError Entity
  | .object members =>
    match Fields.find? members "uid" with
    | none => .error (.json .uidMissing)
    | some j => do
      let u ← uid j
      let as ← attrs u (Fields.find? members "attrs")
      let ps ← parents u (Fields.find? members "parents")
      .ok (Entity.ofParts u as ps)
  | _ => .error (.json .entityNotObject)

def entities : Json → Except DecodeError (List Entity)
  | .array items => items.mapM entity
  | _ => .error (.json .entitiesNotArray)

/-- The value of a JSON text under a decoder. -/
def text {α : Type} (decode : Json → Except DecodeError α) (text : String) :
    Except DecodeError α :=
  match Json.parse? text with
  | some j => decode j
  | none => .error (.json .malformed)

end Decode

def Uid.ofJsonText (text : String) : Except DecodeError Uid := Decode.text Decode.uid text

def Value.ofJsonText (text : String) : Except DecodeError Value := Decode.text Decode.value text

/-- The entities of a JSON array, in its order. -/
def Entity.listOfJsonText (text : String) : Except DecodeError (List Entity) :=
  Decode.text Decode.entities text

end AccessPolicy

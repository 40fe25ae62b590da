import AccessPolicy.Json.Token
import AccessPolicy.Taken

/-! Reading JSON text. Strict reading bounds how deep arrays and objects nest and wants a value for
every string and number; lenient reading, for what is skipped, only checks the grammar. Of two
members with one name the later counts. -/

namespace AccessPolicy.Json

/-- How strictly to read, and how many levels arrays and objects may still nest. -/
inductive Reading where
  | strict (levels : Nat)
  | lenient

namespace Reading

/-- The reading inside an array or object. -/
def enter? : Reading → Option Reading
  | .strict 0 => none
  | .strict (n + 1) => some (.strict n)
  | .lenient => some .lenient

/-- The value of a token. -/
def accept? {α : Type} (default : α) : Reading → Option α → Option α
  | .strict _, v => v
  | .lenient, v => some (v.getD default)

end Reading

mutual

def value (r : Reading) (ts : List Token) : Option (Taken Token Json ts.length) :=
  match ts with
  | .null :: _ => some (.one .null)
  | .bool b :: _ => some (.one (.bool b))
  | .number n :: _ => do
    let n ← r.accept? (.integer 0) n
    some (.one (.number n))
  | .string s :: _ => do
    let s ← r.accept? "" s
    some (.one (.string s))
  | .beginArray :: .endArray :: _ => do
    let _ ← r.enter?
    some (Taken.one (.array [])).wider
  | .beginArray :: ts => do
    let inner ← r.enter?
    let items ← elements inner ts
    some (items.map .array).wider
  | .beginObject :: .endObject :: _ => do
    let _ ← r.enter?
    some (Taken.one (.object [])).wider
  | .beginObject :: ts => do
    let inner ← r.enter?
    let fields ← members inner (fun _ => inner) ts
    some (fields.map fun l => .object (Fields.ofList l)).wider
  | _ => none
termination_by 2 * ts.length
decreasing_by all_goals simp only [List.length_cons]; omega

/-- The elements of an array, one at least, up to its end. -/
def elements (r : Reading) (ts : List Token) : Option (Taken Token (List Json) ts.length) := do
  let ⟨item, ts₁, h₁⟩ ← value r ts
  match ts₁, h₁ with
  | .endArray :: _, h₁ => some ((Taken.nothing [item]).after h₁)
  | .comma :: ts₂, h₁ => do
    let items ← elements r ts₂
    some ((items.map (item :: ·)).afterToken h₁)
  | _, _ => none
termination_by 2 * ts.length + 1
decreasing_by
  · omega
  · simp only [List.length_cons] at h₁; omega

/-- The members of an object in source order, one at least, up to its end. Names are read in one
way and each value in a way of its name. -/
def members (names : Reading) (values : String → Reading) (ts : List Token) :
    Option (Taken Token (List (String × Json)) ts.length) :=
  match ts with
  | .string name :: .colon :: ts => do
    let name ← names.accept? "" name
    let ⟨item, ts₁, h₁⟩ ← value (values name) ts
    match ts₁, h₁ with
    | .endObject :: _, h₁ => some ((Taken.nothing [(name, item)]).after h₁).wider.wider
    | .comma :: ts₂, h₁ => do
      let fields ← members names values ts₂
      some ((fields.map ((name, item) :: ·)).afterToken h₁).wider.wider
    | _, _ => none
  | _ => none
termination_by 2 * ts.length
decreasing_by
  · simp only [List.length_cons]; omega
  · simp only [List.length_cons] at h₁ ⊢; omega

end

/-- How deep arrays and objects may nest. -/
def maxLevels : Nat := 127

/-- The value that a text writes. -/
def parse? (text : String) : Option Json := do
  let ts ← tokens text.toList
  let ⟨j, rest, _⟩ ← value (.strict maxLevels) ts
  if rest.isEmpty then some j else none

end AccessPolicy.Json

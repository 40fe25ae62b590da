import AccessPolicy.Entity
import AccessPolicy.Repeat

/-! A loaded entity graph. Entities are kept in load order and parent edges as positions in that
order; a parent that is not loaded has no edge. The ancestors of an entity are the positions
reached from its parents, each visited once, so that cyclic graphs are searched too. -/

namespace AccessPolicy

structure Store where
  entities : List Entity
  /-- For each entity, the positions of its loaded parents. -/
  edges : List (List Nat)

inductive StoreError where
  | duplicateEntity (uid : Uid)
  | entityNotFound (uid : Uid)
  | attributeNotFound (uid : Uid) (path : List String)
  deriving DecidableEq

def StoreError.message : StoreError → String
  | .duplicateEntity u => "duplicate entity " ++ u.text
  | .entityNotFound u => "entity " ++ u.text ++ " does not exist"
  | .attributeNotFound u path =>
    "entity " ++ u.text ++ " has no attribute `" ++ ".".intercalate path ++ "`"

namespace Store

def empty : Store := ⟨[], []⟩

/-- The position of the entity with a given reference. -/
def indexIn? (entities : List Entity) (u : Uid) : Option Nat :=
  entities.findIdx? fun e => decide (e.uid = u)

/-- Loads a list of entities whose references are pairwise distinct. -/
def load (entities : List Entity) : Except StoreError Store :=
  match firstRepeat? [] (entities.map Entity.uid) with
  | some u => .error (.duplicateEntity u)
  | none => .ok ⟨entities, entities.map fun e => e.parents.filterMap (indexIn? entities)⟩

def index? (s : Store) (u : Uid) : Option Nat := indexIn? s.entities u

def get? (s : Store) (u : Uid) : Option Entity :=
  s.entities.find? fun e => decide (e.uid = u)

/-- The positions among `left` that are in the queue or reached from it by edges between such
positions, each once. -/
def reach (edges : List (List Nat)) (left : List Nat) : List Nat → List Nat
  | [] => []
  | p :: queue =>
    if p ∈ left then p :: reach edges (left.erase p) (queue ++ edges.getD p [])
    else reach edges left queue
termination_by queue => (left.length, queue.length)
decreasing_by
  · rename_i h
    have := List.length_erase_of_mem h
    have := List.length_pos_of_mem h
    simp only [Prod.lex_def]
    omega
  · simp [Prod.lex_def]

/-- The positions of all ancestors of the entity at a position, its own among them if it lies on
a cycle. -/
def closure (s : Store) (i : Nat) : List Nat :=
  reach s.edges (List.range s.edges.length) (s.edges.getD i [])

/-- Whether `candidate` is `u` itself or one of its ancestors. -/
def isAncestor (s : Store) (candidate u : Uid) : Bool :=
  decide (candidate = u) ||
    match s.index? u, s.index? candidate with
    | some i, some j => decide (j ∈ s.closure i)
    | _, _ => false

/-- The ancestors of `u` other than itself, in order. -/
def ancestors (s : Store) (u : Uid) : List Uid :=
  match s.index? u with
  | none => []
  | some i =>
    Sorted.sort Uid.compare
      (((s.closure i).filter (· != i)).filterMap fun j => s.entities[j]?.map Entity.uid)

/-- Follows a path of field names through records. -/
def descend : Value → List String → Option Value
  | v, [] => some v
  | .record fields, k :: path => (Fields.find? fields k).bind fun v => descend v path
  | _, _ :: _ => none

/-- The value at a path of names that starts at an attribute of `u`. -/
def attributeAt (s : Store) (u : Uid) (path : List String) : Except StoreError Value :=
  match s.get? u with
  | none => .error (.entityNotFound u)
  | some e =>
    match path with
    | [] => .error (.attributeNotFound u [])
    | name :: rest =>
      match (e.attr? name).bind fun v => descend v rest with
      | none => .error (.attributeNotFound u path)
      | some v => .ok v

end Store

end AccessPolicy

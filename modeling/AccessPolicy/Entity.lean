import AccessPolicy.Value.Order

/-! Entities: a reference, named attributes and the references of the declared parents.
Attributes are kept in order of their names and parents in order, each once. -/

namespace AccessPolicy

structure Entity where
  uid : Uid
  attrs : List (String × Value) := []
  parents : List Uid := []
  deriving DecidableEq

namespace Entity

/-- The entity with the listed attributes and parents, in any order and with repetitions. -/
def ofParts (uid : Uid) (attrs : List (String × Value)) (parents : List Uid) : Entity :=
  ⟨uid, Fields.ofList attrs, Sorted.ofList Uid.compare parents⟩

def withAttr (e : Entity) (name : String) (v : Value) : Entity :=
  { e with attrs := Fields.insert name v e.attrs }

def withParent (e : Entity) (parent : Uid) : Entity :=
  { e with parents := Sorted.insert Uid.compare parent e.parents }

def attr? (e : Entity) (name : String) : Option Value := Fields.find? e.attrs name

end Entity

end AccessPolicy

import AccessPolicy.Text.Quoted

/-! Entity references: a type name and an id, ordered by type first. A namespaced type keeps its
`::` separators as part of the name. -/

namespace AccessPolicy

structure Uid where
  entityType : String
  id : String
  deriving DecidableEq

namespace Uid

/-- The written form `Type::"id"`. -/
def text (u : Uid) : String := u.entityType ++ "::" ++ Text.quoted u.id

protected def compare (u v : Uid) : Ordering :=
  (compare u.entityType v.entityType).then (compare u.id v.id)

theorem compare_eq_eq_iff {u v : Uid} : Uid.compare u v = .eq ↔ u = v := by
  cases u
  cases v
  simp [Uid.compare, Ordering.then_eq_eq]

end Uid

end AccessPolicy

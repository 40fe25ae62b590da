import AccessPolicy.Value.Order

/-! Requests: who wants to do what to which entity, and a context of named values in order of
their names. -/

namespace AccessPolicy

structure Request where
  principal : Uid
  action : Uid
  resource : Uid
  context : List (String × Value) := []
  deriving DecidableEq

end AccessPolicy

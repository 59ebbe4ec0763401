import RelQuery.Query

/-!
# Change events

A subscription reads changed rows again through its own query, which can only narrow them down.
-/

namespace RelQuery

/-- Rows of a model that have changed, by their keys or as a whole. -/
structure Event where
  model : String
  ids : List Document := []
  instances : List Document := []

namespace Event

/-- The keys of rows that an event names. -/
def keys (primaryKey : String) (e : Event) : List Document :=
  (e.ids ++ e.instances.filterMap (·.get? primaryKey)).filter (!·.isNull)

/-- The primary keys of all rows of a model that events name, each once. -/
def changedIds (s : Schema) (model : String) (events : List Event) :
    Except PlanError (List Document) := do
  let m ← s.model model
  return Document.distinctByText ((events.filter (·.model == model)).flatMap (keys m.primaryKey))

/-- What is said of rows that are gone: their keys. -/
def deletedRows (s : Schema) (model : String) (events : List Event) :
    Except PlanError (List Document) := do
  let m ← s.model model
  return (← changedIds s model events).map fun id => .obj [(m.primaryKey, id)]

/-- The plan that reads the changed rows again; none if no event names a row of the model. -/
def changedList (s : Schema) (model : String) (field : Field) (info : ExecutionInfo)
    (events : List Event) : Except PlanError (Option Plan) := do
  let ids ← changedIds s model events
  if ids.isEmpty then return none
  else do
    let m ← s.model model
    let changed ← Filter.compile s model (.obj [(m.primaryKey, .obj [("_inOp", .arr ids)])])
    return some (Query.restrict (← Query.rootList s model field info) changed)

end Event

end RelQuery

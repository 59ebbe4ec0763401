import RelQuery.Arguments
import RelQuery.Filter.Compile
import RelQuery.Include.Merge

/-!
# Planning includes

The associations that a selection set asks for become a tree of includes.
-/

namespace RelQuery

namespace Include

/-- What one level of a selection set needs of its model. -/
structure Level where
  attributes : List String := []
  requested : List String := []
  includes : List Include := []
  /-- To-many associations that are joined. -/
  many : List String := []

/-- The modifiers that a field's `query` argument puts on its node. -/
def applyArguments (s : Schema) (target : Model) (node : Include) (args : Arguments) :
    Except PlanError Include := do
  let node ← match args.filter with
    | none => .ok node
    | some value => do
      let filter ← Filter.compile s target.name value
      let includes ← attachFilter s target filter node.includes
      .ok { node with includes, filter := filter.proper? }
  return { node with
    required := args.required.getD false
    limit := args.limit
    offset := args.offset
    separate := args.isPaginated }

/-- The node of an association field, given the plan of a level of its target. -/
def ofField (s : Schema) (info : ExecutionInfo)
    (planLevel : Model → List Field → Except PlanError Level)
    (assoc : Association) (field : Field) : Except PlanError Include := do
  let target ← s.model assoc.target
  let level ← planLevel target (← info.expand field.selections)
  let node : Include := {
    target := target.name
    name := assoc.name
    kind := assoc.kind
    attributes :=
      if assoc.kind.isMany then addName level.attributes target.primaryKey else level.attributes
    includes := level.includes }
  match ← Arguments.ofField field info with
  | some args => applyArguments s target node args
  | none => return node

/-- Takes an association field into a level. Its key is selected even if it is not joined: that
may be switched off, or `maxMany` to-many associations may be joined already. -/
def Level.addAssociation (s : Schema) (info : ExecutionInfo)
    (planLevel : Model → List Field → Except PlanError Level)
    (m : Model) (level : Level) (assoc : Association) (field : Field) :
    Except PlanError Level := do
  let level := { level with attributes := addName level.attributes (assoc.parentKey m) }
  if !field.isOptimized info then return level
  let isNew := assoc.kind.isMany && !level.many.contains assoc.name
  if isNew && s.options.maxMany ≤ level.many.length then return level
  let node ← ofField s info planLevel assoc field
  return { level with
    includes := ← insert level.includes node
    many := if isNew then level.many ++ [assoc.name] else level.many }

/-- Takes a field into a level; fields that the model does not have are passed over. -/
def Level.addField (s : Schema) (info : ExecutionInfo)
    (planLevel : Model → List Field → Except PlanError Level)
    (m : Model) (level : Level) (field : Field) : Except PlanError Level :=
  if (m.attribute? field.name).isSome then
    .ok { level with
      attributes := addName level.attributes field.name
      requested := addName level.requested field.name }
  else
    match m.associationForField? field.name with
    | some assoc => level.addAssociation s info planLevel m assoc field
    | none => .ok level

/-- Plans one level of a selection set that is at most `depth` fields deep. -/
def planLevel (s : Schema) (info : ExecutionInfo) :
    Nat → Model → List Field → Except PlanError Level
  | 0, _, _ => malformed .endlessSelection
  | depth + 1, m, fields => fields.foldlM (Level.addField s info (planLevel s info depth) m) {}

/-- Plans a selection set on a model, and what a filter and some orders need. -/
def plan (s : Schema) (info : ExecutionInfo) (model : String) (selections : List Selection)
    (filter : Option Filter) (orderPaths : List (List String)) : Except PlanError PartialPlan := do
  let m ← s.model model
  let level ← planLevel s info (info.depthBound selections) m (← info.expand selections)
  let includes ← match filter with
    | some f => attachFilter s m f level.includes
    | none => .ok level.includes
  let includes ← orderPaths.foldlM (fun ns hops => ensurePath s false hops m ns) includes
  return { model := m.name, attributes := level.attributes, requested := level.requested, includes }

end Include

end RelQuery

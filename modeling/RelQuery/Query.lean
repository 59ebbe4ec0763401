import RelQuery.Include.Planner
import RelQuery.Plan.Compose

/-!
# Queries

The plan of a list, of the list behind an association of one row, and of a count; and the filter of
an update or a deletion.
-/

namespace RelQuery

namespace Query

/-- The row has nothing of an association: the primary key of its target is missing. -/
def lacks (assoc : Association) (target : Model) : Filter :=
  .comparison {
    path := ⟨[assoc.name], target.primaryKey, []⟩
    operator := .is
    operand := .plain .null
    type := (target.attribute? target.primaryKey).map (·.type)
    negated := false }

def unknownAssociation (m : Model) (field : String) : PlanError :=
  .unknownField m.name field m.associationFields

def requireField (m : Model) (field : String) : Except PlanError Association :=
  match m.associationForField? field with
  | some a => .ok a
  | none => .error (unknownAssociation m field)

/-- The condition for each association that a row must have nothing of, and the nodes they need. -/
def exclude (s : Schema) (m : Model) :
    List String → List Include → Except PlanError (List Filter × List Include)
  | [], nodes => .ok ([], nodes)
  | field :: fields, nodes => do
    let assoc ← requireField m field
    let target ← s.targetOf assoc
    let nodes ← Include.ensurePath s false [assoc.name] m nodes
    let (conditions, nodes) ← exclude s m fields nodes
    return (lacks assoc target :: conditions, nodes)

/-- The plan of a selection with all query arguments. -/
def applyArguments (s : Schema) (selection : PartialPlan) (args : Arguments) :
    Except PlanError Plan := do
  let m ← s.model selection.model
  let filter ← match args.filter with
    | some value => (fun f => [f]) <$> Filter.compile s m.name value
    | none => .ok []
  let (conditions, includes) ← exclude s m args.without selection.includes
  Plan.compose s { selection with includes } (Filter.all (filter ++ conditions)).proper? args

/-- The arguments of a field; without any, none of them is set. -/
def argumentsOf (field : Field) (info : ExecutionInfo) : Except PlanError Arguments := do
  return (← Arguments.ofField field info).getD {}

/-- The plan of a list of rows of a model. -/
def rootList (s : Schema) (model : String) (field : Field) (info : ExecutionInfo) :
    Except PlanError Plan := do
  let selection ← Include.plan s info model field.selections none []
  applyArguments s selection (← argumentsOf field info)

/-- A key as SQL text. Only numbers and strings can be keys. -/
def keyLiteral : Document → Except PlanError String
  | .num n => .ok n.text
  | .str s => .ok (Text.literal s)
  | value => malformed (.keyValue value)

/-- The rows of `target` that belong to the row of a source with this key. -/
def correlation (s : Schema) (assoc : Association) (target : Model) (key : Document) :
    Except PlanError Filter :=
  match assoc.usedLink? with
  | some link => do
    return .raw (columnText target.name (target.columnOf target.primaryKey) ++ " IN (SELECT " ++
      Text.identifier link.otherKey ++ " FROM " ++ Text.identifier link.table ++ " WHERE " ++
      Text.identifier link.foreignKey ++ " = " ++ (← keyLiteral key) ++ ")")
  | none => Filter.compile s target.name (.obj [(assoc.childKey target, key)])

/-- The plan with one more condition that every row must meet. -/
def restrict (p : Plan) (f : Filter) : Plan :=
  { p with filter := some (Filter.all (p.filter.toList ++ [f])) }

/-- The key of a row by which an association finds its rows. -/
def parentKeyOf (parent : Model) (assoc : Association) (field : String) (row : Document) :
    Except PlanError Document :=
  let key := assoc.parentKey parent
  match row.get? key with
  | none | some .null => malformed (.keyMissing parent.name key field)
  | some value => .ok value

/-- The plan of the list behind an association field of one row. -/
def associationList (s : Schema) (parentModel : String) (field : Field) (row : Document)
    (info : ExecutionInfo) : Except PlanError Plan := do
  let parent ← s.model parentModel
  let assoc ← requireField parent field.name
  let target ← s.targetOf assoc
  let key ← parentKeyOf parent assoc field.name row
  let condition ← correlation s assoc target key
  return restrict (← rootList s target.name field info) condition

/-- The plan that counts the rows a field's filter selects; selection, grouping, order and page do
not matter. -/
def count (s : Schema) (model : String) (field : Field) (info : ExecutionInfo) :
    Except PlanError Plan := do
  let m ← s.model model
  let args ← argumentsOf field info
  let plan ← applyArguments s { model := m.name } { filter := args.filter, without := args.without }
  return { plan with attributes := [.count] }

inductive Mutation
  | update
  | delete
  deriving DecidableEq

def Mutation.name : Mutation → String
  | .update => "update"
  | .delete => "delete"

/-- The filter of an update or a deletion, whose statement sees only its own table. It must be
given, so that all rows are never meant by accident. -/
def mutationFilter (s : Schema) (model : String) (mutation : Mutation) (args : Document) :
    Except PlanError Filter := do
  let filter ← match args.get? "where" with
    | none | some .null => .error (.missingClause mutation.name "where")
    | some value => .ok value
  let m ← s.model model
  let compiled ← Filter.compile s model filter
  match compiled.paths.find? (!·.hops.isEmpty) with
  | some path => malformed (.distantGuard mutation.name path.text)
  | none => compiled.lower s m m.name

end Query

end RelQuery

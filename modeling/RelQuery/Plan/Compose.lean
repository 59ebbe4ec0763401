import RelQuery.Arguments
import RelQuery.Path
import RelQuery.Plan.Lowering

/-!
# Composing plans

The plan of a query: what its selection needs, filtered, grouped, ordered and cut to a page.
-/

namespace RelQuery

namespace Plan

def localColumn (m : Model) (column : String) : OrderTarget := .column [] m.name column

/-- The targets of ordering by an attribute. A computed one is ordered by its columns, or else by
its expression. -/
def attributeTargets (m : Model) (a : Attribute) : List OrderTarget :=
  match a.computed with
  | none => [localColumn m a.column]
  | some c =>
    if c.columns.isEmpty then [.expression ("(" ++ Computed.qualify m m.name c.expression ++ ")")]
    else c.columns.map fun name => localColumn m (m.columnOf name)

/-- The target of ordering by a path to a stored attribute. -/
def pathTarget (s : Schema) (m : Model) (field : String) : Except PlanError OrderTarget :=
  match Path.Key.parse? field with
  | none => .error (m.unknownField field)
  | some key =>
    if key.negated then malformed (.negatedOrder field)
    else do
      let r ← Path.walk s m key.tokens
      if !r.documentPath.isEmpty || r.attr.isComputed then malformed (.orderTarget field)
      else return .column r.aliases r.target.name r.attr.column

/-- The entries for ordering by an attribute or a path. -/
def orderEntries (s : Schema) (m : Model) (field : String) (direction : Direction) :
    Except PlanError (List OrderEntry) :=
  match m.attribute? field with
  | some a => .ok ((attributeTargets m a).map (⟨·, direction⟩))
  | none => do return [⟨← pathTarget s m field, direction⟩]

/-- Adds the nodes that an entry needs. -/
def attachOrder (s : Schema) (m : Model) (nodes : List Include) (entry : OrderEntry) :
    Except PlanError (List Include) :=
  match entry.target with
  | .column hops _ _ => Include.ensurePath s false hops m nodes
  | .expression _ => .ok nodes

/-- The entries of all orders, with the nodes they need added field by field. -/
def attachOrders (s : Schema) (m : Model) :
    List (String × Direction) → List Include → Except PlanError (List OrderEntry × List Include)
  | [], nodes => .ok ([], nodes)
  | (field, direction) :: rest, nodes => do
    let entries ← orderEntries s m field direction
    let nodes ← entries.foldlM (attachOrder s m) nodes
    let (later, nodes) ← attachOrders s m rest nodes
    return (entries ++ later, nodes)

mutual

/-- Joined rows of a to-many association would multiply the rows that a page counts. Such nodes are
loaded separately, unless a path of the filter or the order runs through them. -/
def splitPage (pinned : List (List String)) (path : List String) : Include → Include
  | ⟨target, name, kind, attributes, filter, includes, required, limit, offset, separate⟩ =>
    let here := path ++ [name]
    if separate || (kind.isMany && !pinned.any here.isPrefixOf && !attributes.isEmpty) then
      ⟨target, name, kind, attributes, filter, includes, required, limit, offset, true⟩
    else
      ⟨target, name, kind, attributes, filter, splitPageAll pinned here includes, required, limit,
        offset, false⟩

def splitPageAll (pinned : List (List String)) (path : List String) : List Include → List Include
  | [] => []
  | n :: ns => splitPage pinned path n :: splitPageAll pinned path ns

end

/-- The hops of every path of a filter and of an order. -/
def pinnedPaths (filter : Option Filter) (order : List OrderEntry) : List (List String) :=
  (match filter with
    | some f => f.paths.map (·.hops)
    | none => []) ++
  order.filterMap fun e =>
    match e.target with
    | .column hops _ _ => some hops
    | .expression _ => none

/-- The key of a group, a stored attribute. -/
def groupKey (m : Model) (key : String) : Except PlanError SelectItem := do
  let a ← m.requireAttribute key
  if a.isComputed then malformed (.groupByComputed key) else return .column a.name

/-- The aggregate that stands for a requested attribute in a grouped query. -/
def aggregate? (m : Model) (args : Arguments) (name : String) : Option SelectItem :=
  if args.group.contains name then none
  else
    match m.attribute? name with
    | none => none
    | some a =>
      if a.isComputed then none
      else
        some (.aggregate ((args.transform.lookup name).getD (.ofType a.type)) a.name a.name)

/-- The items of a grouped query: its keys, then the other requested attributes as aggregates. -/
def groupedItems (m : Model) (requested : List String) (args : Arguments) :
    Except PlanError (List SelectItem) := do
  let keys ← args.group.mapM (groupKey m)
  args.transform.forM fun (name, _) => do let _ ← m.requireAttribute name
  return (keys ++ requested.filterMap (aggregate? m args)).foldl addItem []

/-- The items of a query without groups: what it needs, and the primary key. -/
def plainItems (m : Model) (attributes : List String) : List SelectItem :=
  ((attributes ++ m.primaryKeys).map .column).foldl addItem []

/-- The plan of a selection with a filter and the other query arguments. A grouped query joins
nothing but what its filter and order need. -/
def compose (s : Schema) (selection : PartialPlan) (filter : Option Filter) (args : Arguments) :
    Except PlanError Plan := do
  let m ← s.model selection.model
  let grouped := !args.group.isEmpty
  let nodes := if grouped then [] else selection.includes
  let nodes ← match filter with
    | some f => Include.attachFilter s m f nodes
    | none => .ok nodes
  let (order, nodes) ← attachOrders s m args.order nodes
  let nodes :=
    if !grouped && (args.limit.isSome || args.offset.isSome) then
      splitPageAll (pinnedPaths filter order) [] nodes
    else nodes
  let order :=
    if grouped && order.isEmpty then
      args.group.map fun key => ⟨localColumn m (m.columnOf key), .asc⟩
    else order
  let attributes ←
    if grouped then groupedItems m selection.requested args
    else .ok (plainItems m selection.attributes)
  let filter ← match filter with
    | some f => some <$> f.lower s m m.name
    | none => .ok none
  let includes ← Include.lowerAll s m m.name nodes
  return {
    model := m.name
    attributes
    includes
    filter := filter.bind (·.proper?)
    group := args.group
    order
    limit := args.limit
    offset := args.offset }

end Plan

end RelQuery

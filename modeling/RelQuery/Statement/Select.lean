import RelQuery.Plan.Basic
import RelQuery.Statement.From

/-!
# The statement of a plan

One statement reads the rows of a plan with all joined includes. The base model goes by its name.
-/

namespace RelQuery

/-- A select item of `m`, called `table`. Sums, averages and decimals are read as double
precision. -/
def SelectItem.sql (m : Model) (table : String) (item : SelectItem) : Except PlanError Sql :=
  match item with
  | .column name => do
    let a ← m.requireAttribute name
    return Sql.named (a.selected m table) name
  | .aggregate func attr output => do
    let a ← m.requireAttribute attr
    let call : Sql := [.text (func.sql ++ "("), .column table a.column, .text ")"]
    let wide := func = .sum || func = .avg || (a.type.isDecimal && func ≠ .count)
    return Sql.named
      (if wide then .text "CAST(" :: call ++ [.text " AS DOUBLE PRECISION)"] else call) output
  | .count =>
    .ok (Sql.named
      [.text "COUNT(DISTINCT ", .column table (m.columnOf m.primaryKey), .text ")"] countColumn)

def OrderEntry.sql (table : String) (e : OrderEntry) : Sql :=
  (match e.target with
    | .column hops _ column => [.column (joinName table hops) column]
    | .expression sql => [.text sql]) ++
  [.text (" " ++ e.direction.sql)]

/-- The parts of a statement that reads rows. -/
structure Select where
  columns : List Sql
  table : String
  name : String
  joins : List Join
  condition : Option Condition
  group : List ColumnRef
  order : List Sql
  limit : Option Nat
  offset : Option Nat

namespace Select

/-- A clause, if it has any members. -/
def clause (keyword : String) (members : List Sql) : Sql :=
  if members.isEmpty then [] else .text keyword :: Sql.join ", " members

def number (keyword : String) : Option Nat → Sql
  | some n => [.text (keyword ++ toString n)]
  | none => []

def sql (q : Select) : Sql :=
  .text "SELECT " :: Sql.join ", " q.columns ++ .text " FROM " :: Sql.named [.name q.table] q.name ++
    q.joins.flatMap (·.sql) ++
    (match q.condition with
      | some c => .text " WHERE " :: c.sql
      | none => []) ++
    clause " GROUP BY " (q.group.map fun c => [c.piece]) ++ clause " ORDER BY " q.order ++
    number " LIMIT " q.limit ++ number " OFFSET " q.offset

end Select

namespace Plan

/-- The statement of a plan in parts. A count has neither columns of includes nor order nor page. -/
def select (s : Schema) (p : Plan) : Except PlanError Select := do
  let m ← s.model p.model
  let items ← p.attributes.mapM (·.sql m m.name)
  let below ← if p.isCount then .ok [] else Include.columnsAll s m m.name "" p.includes
  let joins ← Include.joinsAll s m m.name p.includes
  let condition ← match p.filter with
    | some f => some <$> f.condition s m m.name
    | none => .ok none
  return {
    columns := items ++ below
    table := m.table
    name := m.name
    joins
    condition
    group := p.group.map fun key => ⟨m.name, m.columnOf key⟩
    order := if p.isCount then [] else p.order.map (·.sql m.name)
    limit := if p.isCount then none else p.limit
    offset := if p.isCount then none else p.offset }

def statement (s : Schema) (p : Plan) : Except PlanError Statement := do
  return (← p.select s).sql.statement

end Plan

end RelQuery

import RelQuery.Include.Basic
import RelQuery.Statement.Condition

/-!
# Joins

The columns and the joins that the nodes of an include tree add to a statement. A joined model goes
by the path to it, and its columns are selected as `association.attribute`, so that rows can be put
together again.
-/

namespace RelQuery

/-- The name of the link table of a model called `table`. -/
def linkName (table : String) : String := joinName table ["through"]

/-- An attribute as a statement selects it. Decimals are read as double precision. -/
def Attribute.selected (m : Model) (table : String) (a : Attribute) : Sql :=
  match a.computed with
  | some c => Sql.parenthesized [.text (Computed.qualify m table c.expression)]
  | none =>
    if a.type.isDecimal then
      [.text "CAST(", .column table a.column, .text " AS DOUBLE PRECISION)"]
    else [.column table a.column]

/-- A table joined to those before it. -/
structure Join where
  required : Bool
  table : String
  /-- The name of the table in the statement. -/
  name : String
  /-- The link table by which the table is reached, its name, and the columns that match. -/
  link : Option (String × String × ColumnRef × ColumnRef)
  /-- The correlation with the parent. -/
  left : ColumnRef
  right : ColumnRef
  filter : Option Condition

namespace Join

def source (j : Join) : Sql :=
  let table := Sql.named [.name j.table] j.name
  match j.link with
  | none => table
  | some (linkTable, link, left, right) =>
    Sql.parenthesized (Sql.named [.name linkTable] link ++ .text " INNER JOIN " :: table ++
      [.text " ON ", left.piece, .text " = ", right.piece])

def on (j : Join) : Sql :=
  [j.left.piece, .text " = ", j.right.piece] ++
    match j.filter with
    | some c => .text " AND " :: Sql.parenthesized c.sql
    | none => []

def sql (j : Join) : Sql :=
  .text (if j.required then " INNER JOIN " else " LEFT OUTER JOIN ") :: j.source ++
    .text " ON " :: j.on

end Join

namespace Include

/-- The key under which the columns of a node appear, inside those of its parent. -/
def columnKey (parentKey name : String) : String :=
  if parentKey.isEmpty then name else parentKey ++ "." ++ name

/-- The attributes of `m`, called `table`, as columns under `key`. -/
def ownColumns (m : Model) (table key : String) (attributes : List String) :
    Except PlanError (List Sql) :=
  attributes.mapM fun name => do
    let a ← m.requireAttribute name
    return Sql.named (a.selected m table) (key ++ "." ++ name)

mutual

/-- The columns of a node below `parent`, called `table`, and of all joined nodes below it. -/
def columns (s : Schema) (parent : Model) (table parentKey : String) :
    Include → Except PlanError (List Sql)
  | ⟨_, name, _, attributes, _, includes, _, _, _, separate⟩ => do
    if separate then return []
    else
      let (_, m) ← s.follow parent name
      let own := joinName table [name]
      let key := columnKey parentKey name
      let here ← ownColumns m own key attributes
      return here ++ (← columnsAll s m own key includes)

def columnsAll (s : Schema) (parent : Model) (table parentKey : String) :
    List Include → Except PlanError (List Sql)
  | [] => .ok []
  | n :: ns => do
    let here ← columns s parent table parentKey n
    return here ++ (← columnsAll s parent table parentKey ns)

end

/-- The join of `target` to its parent, called `table`. -/
def joinOf (assoc : Association) (parent target : Model) (table : String) (required : Bool)
    (filter : Option Condition) : Join :=
  let own := joinName table [assoc.name]
  let parentColumn : ColumnRef := ⟨table, parent.columnOf (assoc.parentKey parent)⟩
  match assoc.usedLink? with
  | some link =>
    { required, table := target.table, name := own, right := parentColumn, filter
      link := some (link.table, linkName own, ⟨own, target.columnOf target.primaryKey⟩,
        ⟨linkName own, link.otherKey⟩)
      left := ⟨linkName own, link.foreignKey⟩ }
  | none =>
    { required, table := target.table, name := own, link := none, right := parentColumn, filter
      left := ⟨own, target.columnOf (assoc.childKey target)⟩ }

mutual

/-- The join of a node to `parent`, called `table`, before those of all joined nodes below it. -/
def joins (s : Schema) (parent : Model) (table : String) : Include → Except PlanError (List Join)
  | ⟨_, name, _, _, filter, includes, required, _, _, separate⟩ => do
    if separate then return []
    else
      let (assoc, m) ← s.follow parent name
      let own := joinName table [name]
      let condition ← match filter with
        | some f => some <$> f.condition s m own
        | none => .ok none
      return joinOf assoc parent m table required condition :: (← joinsAll s m own includes)

def joinsAll (s : Schema) (parent : Model) (table : String) :
    List Include → Except PlanError (List Join)
  | [] => .ok []
  | n :: ns => do
    let here ← joins s parent table n
    return here ++ (← joinsAll s parent table ns)

end

end Include

end RelQuery

import RelQuery.Statement.Select

/-!
# The statement of a separate include

One statement reads the rows of a separate include for all its parents. Each row carries the key of
its parent; for a page the rows of each parent are numbered, so that every parent has a page of its
own.
-/

namespace RelQuery

/-- The column with the key of the parent that a row belongs to. -/
def parentKeyColumn : String := "__parent__"

/-- The column with the number of a row among those of its parent. -/
def rowNumberColumn : String := "__rn__"

/-- The parts of a statement that reads the rows of a separate include. -/
structure Batch where
  columns : List Sql
  table : String
  name : String
  /-- The link table, its name, and the columns that match. -/
  link : Option (String × String × ColumnRef × ColumnRef)
  joins : List Join
  /-- The column that holds the key of the parent. -/
  parent : ColumnRef
  primaryKey : ColumnRef
  keys : List Document
  keyCast : Option String
  filter : Option Condition
  /-- Rows up to this number of each parent are left out, rows past the second one too. -/
  page : Option (Nat × Option Nat)

namespace Batch

/-- The rows of the given parents; without parents there are none. -/
def correlation (b : Batch) : Sql :=
  if b.keys.isEmpty then [.text "FALSE"]
  else
    b.parent.piece :: .text " IN " ::
      Sql.parenthesized (Sql.join ", " (b.keys.map fun key => [.value key b.keyCast]))

def condition (b : Batch) : Sql :=
  b.correlation ++
    match b.filter with
    | some c => .text " AND " :: Sql.parenthesized c.sql
    | none => []

def rowNumber (b : Batch) : Sql :=
  Sql.named [.text "ROW_NUMBER() OVER (PARTITION BY ", b.parent.piece, .text " ORDER BY ",
    b.primaryKey.piece, .text ")"] rowNumberColumn

def source (b : Batch) : Sql :=
  Sql.named [.name b.table] b.name ++
    match b.link with
    | none => []
    | some (table, name, left, right) =>
      .text " INNER JOIN " :: Sql.named [.name table] name ++
        [.text " ON ", left.piece, .text " = ", right.piece]

/-- All rows, in the order of their parents. -/
def rows (b : Batch) : Sql :=
  let columns := b.columns ++ [Sql.named [b.parent.piece] parentKeyColumn] ++
    if b.page.isSome then [b.rowNumber] else []
  .text "SELECT " :: Sql.join ", " columns ++ .text " FROM " :: b.source ++
    b.joins.flatMap (·.sql) ++ .text " WHERE " :: b.condition ++
    [.text " ORDER BY ", b.parent.piece, .text ", ", b.primaryKey.piece]

def sql (b : Batch) : Sql :=
  match b.page with
  | none => b.rows
  | some (first, last) =>
    .text "SELECT * FROM (" :: b.rows ++
      [.text ") AS ", .name "paged", .text " WHERE ", .name rowNumberColumn,
        .text (" > " ++ toString first)] ++
      (match last with
        | some n => [.text " AND ", .name rowNumberColumn, .text (" <= " ++ toString n)]
        | none => []) ++
      [.text " ORDER BY ", .name parentKeyColumn, .text ", ", .name rowNumberColumn]

end Batch

namespace Include

/-- The row numbers of a page. The last one must be a `bigint`. -/
def page (n : Include) : Except PlanError (Option (Nat × Option Nat)) :=
  let first := n.offset.getD 0
  match n.limit with
  | some limit =>
    if first + limit < Bigint.bound then .ok (some (first, some (first + limit)))
    else malformed (.pageRange limit first n.name)
  | none => .ok (if n.offset.isSome then some (first, none) else none)

/-- The statement, in parts, that reads a separate node for parents with these keys. -/
def batch (s : Schema) (parent : Model) (n : Include) (keys : List Document) :
    Except PlanError Batch := do
  let (assoc, m) ← s.follow parent n.name
  let table := m.name
  let primaryKey : ColumnRef := ⟨table, m.columnOf m.primaryKey⟩
  let items ← n.attributes.mapM fun name => (SelectItem.column name).sql m table
  let below ← columnsAll s m table "" n.includes
  let joins ← joinsAll s m table n.includes
  let filter ← match n.filter with
    | some f => some <$> f.condition s m table
    | none => .ok none
  let page ← n.page
  return {
    columns := items ++ below
    table := m.table
    name := table
    link := assoc.usedLink?.map fun link =>
      (link.table, linkName table, ⟨linkName table, link.otherKey⟩, primaryKey)
    joins
    parent := match assoc.usedLink? with
      | some link => ⟨linkName table, link.foreignKey⟩
      | none => ⟨table, m.columnOf (assoc.childKey m)⟩
    primaryKey
    keys
    keyCast := (parent.attribute? (assoc.parentKey parent)).bind (·.type.placeholderCast?)
    filter
    page }

def batchStatement (s : Schema) (parent : Model) (n : Include) (keys : List Document) :
    Except PlanError Statement := do
  return (← n.batch s parent keys).sql.statement

end Include

end RelQuery

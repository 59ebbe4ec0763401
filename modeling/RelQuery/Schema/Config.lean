import RelQuery.Schema.ScalarType
import RelQuery.Text.Identifier

/-!
# Configurations

Model definitions and planner options as a configuration declares them, defaults filled in.
-/

namespace RelQuery

/-- An attribute computed by an SQL expression over columns of its model. -/
structure Computed where
  expression : String
  /-- Attributes to order by in place of the expression. -/
  columns : List String
  deriving DecidableEq, Inhabited

/-- The link table of a many-to-many association. -/
structure LinkTable where
  table : String
  /-- Column that holds the key of the source. -/
  foreignKey : String
  /-- Column that holds the key of the target. -/
  otherKey : String
  deriving DecidableEq, Inhabited

inductive AssociationKind
  | belongsTo
  | hasOne
  | hasMany
  | belongsToMany
  deriving DecidableEq, Inhabited

namespace AssociationKind

def isMany : AssociationKind → Bool
  | .hasMany | .belongsToMany => true
  | .belongsTo | .hasOne => false

def name : AssociationKind → String
  | .belongsTo => "BelongsTo"
  | .hasOne => "HasOne"
  | .hasMany => "HasMany"
  | .belongsToMany => "BelongsToMany"

def ofName? (s : String) : Option AssociationKind :=
  [belongsTo, hasOne, hasMany, belongsToMany].find? (·.name == s)

end AssociationKind

/-- The SQL dialect of the database. It decides casts and the spelling of some expressions. -/
inductive Dialect
  | postgres
  | mssql
  | mysql
  | sqlite
  deriving DecidableEq, Inhabited

namespace Dialect

def name : Dialect → String
  | .postgres => "postgres"
  | .mssql => "mssql"
  | .mysql => "mysql"
  | .sqlite => "sqlite"

def ofName? (s : String) : Option Dialect :=
  [postgres, mssql, mysql, sqlite].find? (·.name == s)

end Dialect

structure Options where
  /-- To-many associations joined on one level of a selection; further ones are left out. -/
  maxMany : Nat := 3
  dialect : Dialect := .postgres
  /-- Put before every type name. -/
  namespaceName : String := ""
  deriving DecidableEq, Inhabited

structure AttributeConfig where
  name : String
  type : String
  /-- The column, where its name differs. -/
  column : Option String := none
  nullable : Bool := true
  primaryKey : Bool := false
  computed : Option Computed := none
  deriving DecidableEq, Inhabited

structure AssociationConfig where
  kind : AssociationKind
  target : String
  declaredName : Option String := none
  foreignKey : String
  targetKey : Option String := none
  link : Option LinkTable := none
  deriving DecidableEq, Inhabited

/-- The declared name; else the target's with a small first letter, in the plural for many. -/
def AssociationConfig.name (a : AssociationConfig) : String :=
  match a.declaredName with
  | some name => name
  | none =>
    if a.kind.isMany then Text.plural (Text.lowerFirst a.target) else Text.lowerFirst a.target

structure ModelConfig where
  name : String
  table : Option String := none
  attributes : List AttributeConfig
  associations : List AssociationConfig := []
  deriving DecidableEq, Inhabited

namespace ModelConfig

def hasAttribute (m : ModelConfig) (name : String) : Bool := m.attributes.any (·.name == name)

/-- The declared table; else the plural of the name in snake case. -/
def tableName (m : ModelConfig) : String := m.table.getD (Text.snake (Text.plural m.name))

end ModelConfig

structure Config where
  models : List ModelConfig
  options : Options := {}
  deriving DecidableEq, Inhabited

end RelQuery

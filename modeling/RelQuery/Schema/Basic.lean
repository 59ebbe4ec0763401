import RelQuery.Error
import RelQuery.Schema.Config

/-!
# Schemas

Models with their attributes and associations, every default filled in, as the planner reads them.
-/

namespace RelQuery

structure Attribute where
  name : String
  /-- The column behind the attribute. -/
  column : String
  type : ScalarType
  nullable : Bool
  primaryKey : Bool
  computed : Option Computed
  deriving DecidableEq, Inhabited

def Attribute.isComputed (a : Attribute) : Bool := a.computed.isSome

/-- A relationship from `source` to `target`. The foreign key of `belongsTo` is an attribute of
the source and refers to the target key; that of `hasOne` and `hasMany` is an attribute of the
target and refers to the target key on the source. For `belongsToMany` the link table holds both
keys. A target key that is not given is the primary key. -/
structure Association where
  name : String
  kind : AssociationKind
  source : String
  target : String
  foreignKey : String
  targetKey : Option String
  link : Option LinkTable
  deriving DecidableEq, Inhabited

structure Model where
  name : String
  table : String
  attributes : List Attribute
  associations : List Association
  deriving DecidableEq, Inhabited

namespace Model

def attribute? (m : Model) (name : String) : Option Attribute :=
  m.attributes.find? (·.name == name)

def association? (m : Model) (name : String) : Option Association :=
  m.associations.find? (·.name == name)

def attributeNames (m : Model) : List String := m.attributes.map (·.name)

def primaryKeys (m : Model) : List String :=
  (m.attributes.filter (·.primaryKey)).map (·.name)

/-- The first attribute of the primary key. -/
def primaryKey (m : Model) : String := m.primaryKeys.head?.getD "id"

/-- The column of an attribute; a name that is none stands for itself. -/
def columnOf (m : Model) (name : String) : String :=
  match m.attribute? name with
  | some a => a.column
  | none => name

def unknownField (m : Model) (field : String) : PlanError :=
  .unknownField m.name field m.attributeNames

def requireAttribute (m : Model) (name : String) : Except PlanError Attribute :=
  match m.attribute? name with
  | some a => .ok a
  | none => .error (m.unknownField name)

def requireAssociation (m : Model) (name : String) : Except PlanError Association :=
  match m.association? name with
  | some a => .ok a
  | none => .error (m.unknownField name)

end Model

namespace Association

/-- The attribute of the source on which both sides correlate. -/
def parentKey (a : Association) (source : Model) : String :=
  match a.kind with
  | .belongsTo => a.foreignKey
  | _ => a.targetKey.getD source.primaryKey

/-- The attribute of the target on which both sides correlate. -/
def childKey (a : Association) (target : Model) : String :=
  match a.kind with
  | .belongsTo => a.targetKey.getD target.primaryKey
  | .hasOne | .hasMany => a.foreignKey
  | .belongsToMany => target.primaryKey

/-- The link table, for the kind that uses one. -/
def usedLink? (a : Association) : Option LinkTable :=
  match a.kind with
  | .belongsToMany => a.link
  | _ => none

end Association

structure Schema where
  models : List Model
  options : Options
  deriving DecidableEq, Inhabited

namespace Schema

def model? (s : Schema) (name : String) : Option Model := s.models.find? (·.name == name)

def model (s : Schema) (name : String) : Except PlanError Model :=
  match s.model? name with
  | some m => .ok m
  | none => .error (.unknownModel name)

def targetOf (s : Schema) (a : Association) : Except PlanError Model := s.model a.target

/-- The association `name` of `m`, with the model it leads to. -/
def follow (s : Schema) (m : Model) (name : String) : Except PlanError (Association × Model) := do
  let a ← m.requireAssociation name
  return (a, ← s.targetOf a)

/-- The model reached from `m` through `hops`. -/
def modelAt (s : Schema) (m : Model) (hops : List String) : Except PlanError Model :=
  hops.foldlM (fun m hop => do return (← s.follow m hop).2) m

end Schema

end RelQuery

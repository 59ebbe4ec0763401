import RelQuery.Schema.Naming

/-!
# Building a schema

A configuration is accepted if its names are distinct, its keys and targets exist, and no type name
belongs to two models.
-/

namespace RelQuery.Schema

def requireAttribute (m : ModelConfig) (name : String) : Except ConfigError Unit :=
  if m.hasAttribute name then .ok () else .error (.missingAttribute m.name name)

/-- Checks the attributes after those named `seen`; gives all names. -/
def checkAttributes (model : String) (seen : List String) :
    List AttributeConfig → Except ConfigError (List String)
  | [] => .ok seen
  | a :: as =>
    if seen.contains a.name then .error (.duplicateMember model a.name)
    else if a.primaryKey && a.computed.isSome then .error (.invalidPrimaryKey model a.name)
    else checkAttributes model (seen ++ [a.name]) as

/-- Checks the keys of an association: each is an attribute of the side it is said to be on. -/
def checkKeys (source target : ModelConfig) (a : AssociationConfig) : Except ConfigError Unit :=
  let checkTargetKey (side : ModelConfig) : Except ConfigError Unit :=
    match a.targetKey with
    | some key => requireAttribute side key
    | none => .ok ()
  match a.kind with
  | .belongsTo => do
    requireAttribute source a.foreignKey
    checkTargetKey target
  | .hasOne | .hasMany => do
    requireAttribute target a.foreignKey
    checkTargetKey source
  | .belongsToMany =>
    if a.link.isNone then .error (.missingLink source.name a.name) else checkTargetKey source

/-- Checks the associations of `m` after the members named `seen`. -/
def checkAssociations (models : List ModelConfig) (m : ModelConfig) (seen : List String) :
    List AssociationConfig → Except ConfigError Unit
  | [] => .ok ()
  | a :: as =>
    match models.find? (·.name == a.target) with
    | none => .error (.missingModel a.target)
    | some target =>
      if seen.contains a.name then .error (.duplicateMember m.name a.name)
      else do
        checkKeys m target a
        checkAssociations models m (seen ++ [a.name]) as

def checkModel (models : List ModelConfig) (m : ModelConfig) : Except ConfigError Unit := do
  let seen ← checkAttributes m.name [] m.attributes
  if !m.attributes.any (·.primaryKey) then throw (.missingPrimaryKey m.name)
  checkAssociations models m seen m.associations

def checkModelNames (seen : List String) : List ModelConfig → Except ConfigError Unit
  | [] => .ok ()
  | m :: ms =>
    if seen.contains m.name then .error (.duplicateModel m.name)
    else checkModelNames (seen ++ [m.name]) ms

/-- Accepts a configuration that refers to nothing missing and names nothing twice. -/
def validate (c : Config) : Except ConfigError Unit := do
  checkModelNames [] c.models
  c.models.forM (checkModel c.models)

end RelQuery.Schema

namespace RelQuery

def AttributeConfig.resolve (a : AttributeConfig) : Attribute where
  name := a.name
  column := a.column.getD a.name
  type := .parse a.type
  nullable := a.nullable && !a.primaryKey
  primaryKey := a.primaryKey
  computed := a.computed

def AssociationConfig.resolve (source : String) (a : AssociationConfig) : Association where
  name := a.name
  kind := a.kind
  source := source
  target := a.target
  foreignKey := a.foreignKey
  targetKey := a.targetKey
  link := a.link

def ModelConfig.resolve (m : ModelConfig) : Model where
  name := m.name
  table := m.tableName
  attributes := m.attributes.map (·.resolve)
  associations := m.associations.map (·.resolve m.name)

end RelQuery

namespace RelQuery.Schema

/-- Takes in one type name; none may belong to two models. -/
def claimTypeName (owners : List (String × String)) (claim : String × String) :
    Except ConfigError (List (String × String)) :=
  match owners.lookup claim.1 with
  | none => .ok (owners ++ [claim])
  | some owner =>
    if owner = claim.2 then .ok owners else .error (.duplicateTypeName claim.1)

/-- The type names of a model, with the model. -/
def typeClaims (o : Options) (m : Model) : List (String × String) :=
  [(o.typeName m.name, m.name), (o.manyTypeName m.name, m.name)]

/-- The schema of a configuration. -/
def build (c : Config) : Except ConfigError Schema := do
  validate c
  let models := c.models.map (·.resolve)
  let _ ← (models.flatMap (typeClaims c.options)).foldlM claimTypeName []
  return ⟨models, c.options⟩

end RelQuery.Schema

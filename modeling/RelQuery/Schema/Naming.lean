import RelQuery.Schema.Basic

/-!
# Field and type names

The field that shows an association is its name in camel case; types are named after their model.
-/

namespace RelQuery

def Association.fieldName (a : Association) : String := Text.camel a.name

/-- The shape of a field. -/
inductive FieldShape
  | scalar (type : ScalarType)
  | object (model : String)
  | list (item : FieldShape)
  | nonNull (inner : FieldShape)
  deriving DecidableEq

namespace FieldShape

def isList : FieldShape → Bool
  | .list _ => true
  | .nonNull inner => inner.isList
  | _ => false

/-- The model behind an object or a list of objects. -/
def target? : FieldShape → Option String
  | .scalar _ => none
  | .object model => some model
  | .list item => item.target?
  | .nonNull inner => inner.target?

end FieldShape

def Attribute.shape (a : Attribute) : FieldShape :=
  if a.nullable then .scalar a.type else .nonNull (.scalar a.type)

def Association.shape (a : Association) : FieldShape :=
  if a.kind.isMany then .list (.nonNull (.object a.target)) else .object a.target

namespace Model

/-- The name of the association behind a field. Of two with one field the later counts; a field
of none stands for itself. -/
def associationName (m : Model) (field : String) : String :=
  match m.associations.findRev? (·.fieldName == field) with
  | some a => a.name
  | none => field

def associationForField? (m : Model) (field : String) : Option Association :=
  m.association? (m.associationName field)

/-- The shape of a field that names an attribute or else an association. -/
def fieldShape? (m : Model) (field : String) : Option FieldShape :=
  match m.attribute? field with
  | some a => some a.shape
  | none => (m.associationForField? field).map (·.shape)

/-- The fields of all associations. -/
def associationFields (m : Model) : List String := m.associations.map (·.fieldName)

end Model

namespace Options

def typeName (o : Options) (model : String) : String := o.namespaceName ++ Text.upperFirst model

def manyTypeName (o : Options) (model : String) : String := Text.plural (o.typeName model)

end Options

namespace Schema

/-- The field of an association; unknown names stand for themselves. -/
def fieldName (s : Schema) (model association : String) : String :=
  match (s.model? model).bind (·.association? association) with
  | some a => a.fieldName
  | none => association

/-- The association behind a field; unknown names stand for themselves. -/
def associationName (s : Schema) (model field : String) : String :=
  match s.model? model with
  | some m => m.associationName field
  | none => field

end Schema

end RelQuery

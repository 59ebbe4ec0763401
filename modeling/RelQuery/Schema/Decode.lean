import RelQuery.Document.Reader
import RelQuery.Document.Record
import RelQuery.Schema.Config

/-!
# Reading configurations

A configuration is read from its text in the order of the text, so of several faults the first one
counts.
-/

namespace RelQuery.Config

open Draft (record)

def kindName : Document → String
  | .null => "null"
  | .bool _ => "boolean"
  | .num _ => "number"
  | .str _ => "string"
  | .arr _ => "array"
  | .obj _ => "object"

/-- The columns of a computed attribute, a list of names. -/
def columnNames : Document → Read (List String)
  | .arr items => items.mapM fun
    | .str s => .ok s
    | _ => .error .unreadable
  | _ => .error .unreadable

/-- A computed attribute: its expression alone, or with the columns to order by. -/
def computed (d : Draft) : Read Computed :=
  match d.document? with
  | none => .error .unreadable
  | some (.str expression) => .ok ⟨expression, []⟩
  | some (.obj fields) =>
    match fields.lookup "expression" with
    | some (.str expression) =>
      match fields.lookup "columns" with
      | some columns => (⟨expression, ·⟩) <$> columnNames columns
      | none => .ok ⟨expression, []⟩
    | _ => .error .expressionMissing
  | some other => .error (.computedShape (kindName other))

def attributeConfig : Draft → Read AttributeConfig :=
  record ["name", "type", "field", "nullable", "primaryKey", "virtual"] ["name", "type"]
    (fun a key d =>
      match key with
      | "name" => return { a with name := ← d.text }
      | "type" => return { a with type := ← d.text }
      | "field" => return { a with column := ← d.optional Draft.text }
      | "nullable" => return { a with nullable := ← d.flag }
      | "primaryKey" => return { a with primaryKey := ← d.flag }
      | _ => return { a with computed := ← d.optional computed })
    { name := "", type := "" }

def linkTable : Draft → Read LinkTable :=
  let keys := ["table", "foreignKey", "otherKey"]
  record keys keys
    (fun l key d =>
      match key with
      | "table" => return { l with table := ← d.text }
      | "foreignKey" => return { l with foreignKey := ← d.text }
      | _ => return { l with otherKey := ← d.text })
    ⟨"", "", ""⟩

def associationConfig : Draft → Read AssociationConfig :=
  record ["kind", "target", "as", "foreignKey", "targetKey", "through"]
    ["kind", "target", "foreignKey"]
    (fun a key d =>
      match key with
      | "kind" => return { a with kind := ← d.choice AssociationKind.ofName? }
      | "target" => return { a with target := ← d.text }
      | "as" => return { a with declaredName := ← d.optional Draft.text }
      | "foreignKey" => return { a with foreignKey := ← d.text }
      | "targetKey" => return { a with targetKey := ← d.optional Draft.text }
      | _ => return { a with link := ← d.optional linkTable })
    { kind := .belongsTo, target := "", foreignKey := "" }

def modelConfig : Draft → Read ModelConfig :=
  record ["name", "table", "attributes", "associations"] ["name", "attributes"]
    (fun m key d =>
      match key with
      | "name" => return { m with name := ← d.text }
      | "table" => return { m with table := ← d.optional Draft.text }
      | "attributes" => return { m with attributes := ← d.list attributeConfig }
      | _ => return { m with associations := ← d.list associationConfig })
    { name := "", attributes := [] }

def plannerOptions : Draft → Read Options :=
  record ["maxManyAssociations", "dialect", "namespace"] []
    (fun o key d =>
      match key with
      | "maxManyAssociations" => return { o with maxMany := ← d.natural }
      | "dialect" => return { o with dialect := ← d.choice Dialect.ofName? }
      | _ => return { o with namespaceName := ← d.text })
    {}

def ofDraft : Draft → Read Config :=
  record ["models", "options"] ["models"]
    (fun c key d =>
      match key with
      | "models" => return { c with models := ← d.list modelConfig }
      | _ => return { c with options := ← plannerOptions d })
    { models := [] }

/-- The configuration a text holds. -/
def load (s : String) : Except ConfigError Config :=
  let (draft, ended) := Draft.read s
  match ofDraft draft with
  | .ok config => if ended then .ok config else .error (.load .unreadable)
  | .error cause => .error (.load cause)

end RelQuery.Config

import RelQuery.Plan.Basic

/-!
# Plans as documents

The form in which plans, includes and filters are shown.
-/

namespace RelQuery

namespace Document

def names (ss : List String) : Document := .arr (ss.map .str)

def text? : Option String → Document
  | some s => .str s
  | none => .null

def nat? : Option Nat → Document
  | some n => (Document.ofNat? n).getD .null
  | none => .null

end Document

def ScalarType.document : ScalarType → Document
  | .integer => .str "Integer"
  | .tinyInt => .str "TinyInt"
  | .smallInt => .str "SmallInt"
  | .bigInt => .str "BigInt"
  | .decimal => .str "Decimal"
  | .float => .str "Float"
  | .double => .str "Double"
  | .real => .str "Real"
  | .string => .str "String"
  | .text => .str "Text"
  | .char => .str "Char"
  | .boolean => .str "Boolean"
  | .date => .str "Date"
  | .dateOnly => .str "DateOnly"
  | .time => .str "Time"
  | .dateTimeOffset => .str "DateTimeOffset"
  | .uuid => .str "Uuid"
  | .json => .str "Json"
  | .jsonb => .str "Jsonb"
  | .blob => .str "Blob"
  | .enum => .str "Enum"
  | .other name => .obj [("Other", .str name)]

def AttributePath.document (p : AttributePath) : Document :=
  .obj ([("hops", .names p.hops), ("attribute", .str p.attr)] ++
    if p.documentPath.isEmpty then [] else [("jsonPath", .names p.documentPath)])

def Operand.document : Operand → Document
  | .plain value => .obj [("json", value)]
  | .cast literal type => .obj [("cast", .obj [("literal", .str literal), ("sql_type", .str type)])]

def Connective.document : Connective → Document
  | .and => .str "And"
  | .or => .str "Or"

namespace Filter

mutual

def document : Filter → Document
  | .comparison c => .obj [("comparison", .obj [
      ("path", c.path.document), ("operator", .str c.operator.name), ("value", c.operand.document),
      ("valueType", match c.type with | some t => t.document | none => .null),
      ("negated", .bool c.negated)])]
  | .computed c => .obj [("virtual", .obj [
      ("path", c.path.document), ("expression", .str c.expression),
      ("operator", .str c.operator.name), ("literal", .str c.literal),
      ("negated", .bool c.negated)])]
  | .raw sql => .obj [("raw", .obj [("sql", .str sql)])]
  | .logical k fs => .obj [("logical", .obj [
      ("connective", k.document), ("children", .arr (documents fs))])]
  | .not f => .obj [("not", document f)]

def documents : List Filter → List Document
  | [] => []
  | f :: fs => document f :: documents fs

end

def document? : Option Filter → Document
  | some f => f.document
  | none => .null

end Filter

namespace Include

mutual

def document : Include → Document
  | ⟨target, name, kind, attributes, filter, includes, required, limit, offset, separate⟩ => .obj [
      ("targetModel", .str target), ("alias", .str name), ("kind", .str kind.name),
      ("attributes", .names attributes), ("where", Filter.document? filter),
      ("includes", .arr (documents includes)), ("required", .bool required),
      ("limit", .nat? limit), ("offset", .nat? offset), ("separate", .bool separate)]

def documents : List Include → List Document
  | [] => []
  | n :: ns => document n :: documents ns

end

end Include

def SelectItem.document : SelectItem → Document
  | .column name => .obj [("kind", .str "column"), ("name", .str name)]
  | .aggregate func attr output => .obj [("kind", .str "aggregate"), ("func", .str func.name),
      ("attribute", .str attr), ("alias", .str output)]
  | .count => .obj [("kind", .str "count")]

def OrderTarget.document : OrderTarget → Document
  | .column hops model c => .obj [("kind", .str "column"), ("hops", .names hops),
      ("model", .str model), ("column", .str c)]
  | .expression sql => .obj [("kind", .str "expression"), ("sql", .str sql)]

def OrderEntry.document (e : OrderEntry) : Document :=
  .obj [("target", e.target.document), ("direction", .str e.direction.sql)]

def PartialPlan.document (p : PartialPlan) : Document :=
  .obj [("model", .str p.model), ("attributes", .names p.attributes),
    ("requested", .names p.requested), ("includes", .arr (Include.documents p.includes))]

def Plan.document (p : Plan) : Document :=
  .obj [("model", .str p.model), ("attributes", .arr (p.attributes.map (·.document))),
    ("includes", .arr (Include.documents p.includes)), ("where", Filter.document? p.filter),
    ("group", .names p.group), ("order", .arr (p.order.map (·.document))),
    ("limit", .nat? p.limit), ("offset", .nat? p.offset)]

end RelQuery

import RelQuery.Document.Printer

/-!
# Errors

The causes for which a configuration or a query is refused, with one code and one message each.
-/

namespace RelQuery

/-- Why the text of a configuration cannot be read. -/
inductive LoadError
  /-- The text is no JSON, or has not the form of a configuration. -/
  | unreadable
  | expressionMissing
  /-- A computed attribute is declared by a value of this kind. -/
  | computedShape (found : String)
  deriving DecidableEq, Repr

inductive ConfigError
  | missingModel (name : String)
  | missingAttribute (model attr : String)
  | missingPrimaryKey (model : String)
  | invalidPrimaryKey (model attr : String)
  | duplicateModel (name : String)
  | duplicateMember (model name : String)
  | duplicateTypeName (name : String)
  | load (cause : LoadError)
  | missingLink (model association : String)
  | invalidDialect (text : String)
  | invalidCount (setting text : String)
  deriving DecidableEq, Repr

def LoadError.message : LoadError → String
  | .unreadable => "the text is not a configuration"
  | .expressionMissing => "virtual attribute must have a string \"expression\""
  | .computedShape found =>
    "virtual attribute must be a string or \x7b \"expression\": \"...\" \x7d; got " ++ found

namespace ConfigError

def kind : ConfigError → String
  | .missingModel .. | .missingAttribute .. => "MissingReference"
  | .missingPrimaryKey .. => "MissingPrimaryKey"
  | .invalidPrimaryKey .. => "InvalidPrimaryKey"
  | .duplicateModel .. | .duplicateMember .. => "DuplicateName"
  | .duplicateTypeName .. => "DuplicateTypeName"
  | .load .. => "Load"
  | .missingLink .. | .invalidDialect .. | .invalidCount .. => "Validation"

def message : ConfigError → String
  | .missingModel name => "missing reference: model '" ++ name ++ "'"
  | .missingAttribute model attr =>
    "missing reference: attribute '" ++ model ++ "." ++ attr ++ "'"
  | .missingPrimaryKey model => "model " ++ model ++ " has no primary key"
  | .invalidPrimaryKey model attr =>
    "invalid primary key: model " ++ model ++ " attribute " ++ attr
  | .duplicateModel name => "duplicate name: " ++ name
  | .duplicateMember model name => "duplicate name: " ++ model ++ "." ++ name
  | .duplicateTypeName name => "duplicate generated type name: " ++ name
  | .load cause => "config load: " ++ cause.message
  | .missingLink model association =>
    "validation: association " ++ model ++ "." ++ association ++
      " is BelongsToMany but declares no through table"
  | .invalidDialect text =>
    "validation: invalid dialect: " ++ text ++ " (expected postgres, mssql, mysql or sqlite)"
  | .invalidCount setting text =>
    "validation: " ++ setting ++ " must be an integer, got " ++ text

end ConfigError

/-- What a type admits as the value of a comparison. -/
inductive ValueKind
  | integer
  | number
  | date
  | scalar
  deriving DecidableEq, Repr

def ValueKind.text : ValueKind → String
  | .integer => "an integer"
  | .number => "a number"
  | .date => "a date"
  | .scalar => "a scalar"

/-- What is wrong with a query argument, a filter, an expression or a selection. -/
inductive Malformed
  | emptyPath
  | expressionShape
  | literalCount
  | functionMissing
  | operandsMissing (operator : String)
  | argumentCount (function : String)
  | unknownFunction (function : String)
  | filterShape (value : Document)
  | looseValue (value : Document) (model : String)
  | keyInAttribute (key : String)
  | associationValue (key : String)
  | connectiveValue (operator : String) (value : Document)
  | looseOperator (operator model : String)
  | pairExpected (operator target : String)
  | listExpected (operator attr : String)
  | truthExpected (operator attr : String) (value : Document)
  | scalarExpected (operator attr : String)
  | kindExpected (attr : String) (kind : ValueKind) (value : Document)
  | incomparable (operator target : String) (value : Document)
  | argumentsShape (value : Document)
  | countRange (key : String) (value : Number)
  | countShape (key : String) (value : Document)
  | namesShape (key : String)
  | nameEntry (key : String) (value : Document)
  | orderShape
  | orderDirection (text : String)
  | orderEntry (value : Document)
  | transformShape
  | transformEntry (attr : String) (value : Document)
  | requiredShape (value : Document)
  | unknownArgument (key : String)
  | transformWithoutGroup
  | negatedOrder (key : String)
  | orderTarget (key : String)
  | groupByComputed (key : String)
  | throughSeparate (association : String)
  | unknownFragment (name : String)
  | cyclicFragment (name : String)
  | endlessSelection
  | keyValue (value : Document)
  | keyMissing (model key field : String)
  | distantGuard (mutation path : String)
  | pageRange (limit offset : Nat) (association : String)

def Malformed.message : Malformed → String
  | .emptyPath => "empty field path"
  | .expressionShape => "_Exp expects an object with a single `fn` or `literal` key"
  | .literalCount => "`literal` takes exactly one name"
  | .functionMissing => "`fn` needs a function name"
  | .operandsMissing operator => "infix `" ++ operator ++ "` needs at least two arguments"
  | .argumentCount function => "wrong number of arguments for `" ++ function ++ "`"
  | .unknownFunction function => "unknown expression function `" ++ function ++ "`"
  | .filterShape value => "where clause must be an object or an array, got " ++ value.compact
  | .looseValue value model =>
    "value " ++ value.compact ++ " is not attached to an attribute of " ++ model
  | .keyInAttribute key => "unexpected key '" ++ key ++ "' inside an attribute filter"
  | .associationValue key => "association '" ++ key ++ "' must be filtered with an object"
  | .connectiveValue operator value =>
    "_" ++ operator ++ "Op expects an array or an object, got " ++ value.compact
  | .looseOperator operator model =>
    "operator _" ++ operator ++ "Op must be applied to an attribute of " ++ model
  | .pairExpected operator target =>
    "_" ++ operator ++ "Op on '" ++ target ++ "' expects exactly two values"
  | .listExpected operator attr =>
    "_" ++ operator ++ "Op on '" ++ attr ++ "' expects an array"
  | .truthExpected operator attr value =>
    "_" ++ operator ++ "Op on '" ++ attr ++ "' expects null or a boolean, got " ++
      value.compact
  | .scalarExpected operator attr =>
    "_" ++ operator ++ "Op on '" ++ attr ++ "' expects a scalar"
  | .kindExpected attr kind value =>
    "'" ++ attr ++ "' expects " ++ kind.text ++ ", got " ++ value.compact
  | .incomparable operator target value =>
    "_" ++ operator ++ "Op on '" ++ target ++ "' cannot compare against " ++ value.compact
  | .argumentsShape value => "query must be an object, got " ++ value.compact
  | .countRange key value =>
    key ++ " must be a non-negative integer up to 9223372036854775807, got " ++ value.text
  | .countShape key value => key ++ " must be a non-negative integer, got " ++ value.compact
  | .namesShape key => key ++ " must be an array of field names"
  | .nameEntry key value => "invalid " ++ key ++ " entry " ++ value.compact
  | .orderShape => "order must be an array of [field, direction] pairs"
  | .orderDirection text => "order direction must be ASC or DESC, got " ++ text
  | .orderEntry value => "order entry must be [field, \"ASC\"|\"DESC\"], got " ++ value.compact
  | .transformShape => "transform must map attributes to aggregate names"
  | .transformEntry attr value =>
    "transform for '" ++ attr ++ "' must be one of sum, max, min, avg, count; got " ++
      value.compact
  | .requiredShape value => "required must be a boolean, got " ++ value.compact
  | .unknownArgument key => "unknown query argument '" ++ key ++ "'"
  | .transformWithoutGroup => "transform requires group"
  | .negatedOrder key => "order key '" ++ key ++ "' cannot use a negated path"
  | .orderTarget key => "order key '" ++ key ++ "' must end on a column"
  | .groupByComputed key => "cannot group by computed attribute '" ++ key ++ "'"
  | .throughSeparate association =>
    "cannot filter or order through '" ++ association ++
      "': it is loaded separately because of limit/offset"
  | .unknownFragment name => "unknown fragment '" ++ name ++ "'"
  | .cyclicFragment name => "fragment '" ++ name ++ "' spreads itself"
  | .endlessSelection => "selections contain each other"
  | .keyValue value => "parent key value " ++ value.compact ++ " is not a number or a string"
  | .keyMissing model key field =>
    "parent " ++ model ++ " row has no value for key '" ++ key ++ "' of '" ++ field ++ "'"
  | .distantGuard mutation path =>
    mutation ++ " filter cannot reach '" ++ path ++ "' through an association"
  | .pageRange limit offset association =>
    "limit " ++ toString limit ++ " with offset " ++ toString offset ++ " on '" ++ association ++
      "' is out of range"

/-- A modifier on which two plans disagree. -/
inductive Modifier
  | model
  | group
  | order
  | limit
  | offset
  deriving DecidableEq, Repr

def Modifier.name : Modifier → String
  | .model => "model"
  | .group => "group"
  | .order => "order"
  | .limit => "limit"
  | .offset => "offset"

/-- Why a query has no plan or a plan has no statement. -/
inductive PlanError
  | unknownField (model field : String) (valid : List String)
  | unknownOperator (name : String)
  | unsafeLiteral (text : String)
  | malformed (cause : Malformed)
  | conflict (modifier : Modifier)
  | unreachable (model segment : String)
  | missingClause (operation clause : String)
  | unknownModel (name : String)

namespace PlanError

def code : PlanError → String
  | .unknownField .. => "unknown_field"
  | .unknownOperator .. => "unknown_operator"
  | .unsafeLiteral .. => "unsafe_literal_expression"
  | .malformed .. => "malformed_filter"
  | .conflict .. => "conflicting_plan_modifier"
  | .unreachable .. => "unreachable_path"
  | .missingClause .. => "missing_required_clause"
  | .unknownModel .. => "unknown_model"

def message : PlanError → String
  | .unknownField model field valid =>
    "unknown field '" ++ field ++ "' on " ++ model ++ ", valid attributes: " ++
      ", ".intercalate valid
  | .unknownOperator name => "unknown operator '" ++ name ++ "'"
  | .unsafeLiteral text => "unsafe literal in expression: '" ++ text ++ "'"
  | .malformed cause => "malformed filter: " ++ cause.message
  | .conflict modifier => "conflicting " ++ modifier.name ++ " between merged plans"
  | .unreachable model segment =>
    "unreachable path: '" ++ segment ++ "' on " ++ model ++ " is not an association"
  | .missingClause operation clause => operation ++ " requires a " ++ clause ++ " clause"
  | .unknownModel name => "unknown model '" ++ name ++ "'"

end PlanError

/-- Why the database gave no answer. -/
inductive DatabaseError
  /-- The database refused the statement with this message. -/
  | refused (message : String)
  /-- No connection could be made, for this reason. -/
  | unreachable (reason : String)
  deriving DecidableEq, Repr

def DatabaseError.message : DatabaseError → String
  | .refused message => "error returned from database: " ++ message
  | .unreachable reason => "error communicating with database: " ++ reason

/-- Why a request fails. -/
inductive Error
  | config (cause : ConfigError)
  | plan (cause : PlanError)
  | database (cause : DatabaseError)

namespace Error

def code : Error → String
  | .config _ => "config_error"
  | .plan cause => cause.code
  | .database _ => "database_error"

def message : Error → String
  | .config cause => cause.message
  | .plan cause => cause.message
  | .database cause => "database: " ++ cause.message

/-- What a client is told beside code and message. -/
def details? : Error → Option Document
  | .plan (.unknownField _ _ valid) => some (.obj [("validAttributes", .arr (valid.map .str))])
  | _ => none

/-- The error as a member of a response's `errors`. -/
def document (e : Error) : Document :=
  let details := match e.details? with
    | some d => [("details", d)]
    | none => []
  .obj [("message", .str e.message), ("extensions", .obj (("code", .str e.code) :: details))]

end Error

instance : Coe PlanError Error := ⟨.plan⟩

/-- Shorthand for a malformed query. -/
def malformed {α : Type} (cause : Malformed) : Except PlanError α := .error (.malformed cause)

end RelQuery

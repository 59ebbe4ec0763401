import RelQuery.Calendar.Reading
import RelQuery.Error
import RelQuery.Filter.Basic
import RelQuery.Schema.Config
import RelQuery.Text.Quoted

/-!
# Operands

How the value of a comparison is read by the type of its attribute: the operand bound to a
placeholder for a stored attribute, the literal written out for a computed one.
-/

namespace RelQuery.Operand

/-- Equality with `null` is a test for it. -/
def testForNull (op : Operator) (value : Document) : Operator :=
  if value.isNull then
    match op with
    | .eq => .is
    | .ne => .not
    | op => op
  else op

/-- Whether a value has the form that the operator asks for. -/
def checkShape (op : Operator) (value : Document) (attr : String) : Except PlanError Unit :=
  if op.takesList then
    match value with
    | .arr items =>
      if op.isRange && items.length != 2 then malformed (.pairExpected op.name attr) else .ok ()
    | _ => malformed (.listExpected op.name attr)
  else
    match op, value with
    | .is, .null | .is, .bool _ | .not, .null | .not, .bool _ => .ok ()
    | .is, _ | .not, _ => malformed (.truthExpected op.name attr value)
    | _, .arr _ | _, .obj _ => malformed (.scalarExpected op.name attr)
    | _, _ => .ok ()

/-- An integer: of a decimal number the whole part, as far as it is in range. -/
def integer (value : Document) (attr : String) : Except PlanError Bigint :=
  let read? : Option Bigint := match value with
    | .num n => n.toBigint? <|> n.toBinary64?.map fun x => .clamp x.trunc
    | .str s => (Numeral.int? (Text.trim s.toList)).bind Bigint.ofInt?
    | _ => none
  match read? with
  | some n => .ok n
  | none => malformed (.kindExpected attr .integer value)

def decimal (value : Document) (attr : String) : Except PlanError Binary64 :=
  let read? : Option Binary64 := match value with
    | .num n => n.toBinary64?
    | .str s => Numeral.decimal? (Text.trim s.toList)
    | _ => none
  match read? with
  | some x => .ok x
  | none => malformed (.kindExpected attr .number value)

/-- A timestamp, as RFC 3339 text. -/
def timestamp (value : Document) (attr : String) : Except PlanError String :=
  let read? : Option String := match value with
    | .str s => Calendar.normalize? s
    | _ => none
  match read? with
  | some s => .ok s
  | none => malformed (.kindExpected attr .date value)

def scalar (type : ScalarType) (value : Document) (attr : String) : Except PlanError Document :=
  if value.isNull then .ok .null
  else if type.isInteger then do return .num (.ofBigint (← integer value attr))
  else if type.isDecimal then do return .num (.float (← decimal value attr))
  else .ok value

/-- The operand of a comparison with a stored attribute. -/
def ofValue (type : ScalarType) (dialect : Dialect) (value : Document) (attr : String) :
    Except PlanError Operand :=
  match value with
  | .arr items => do return .plain (.arr (← items.mapM (scalar type · attr)))
  | .str _ =>
    if type = .dateTimeOffset ∧ dialect = .mssql then do
      return .cast (← timestamp value attr) ScalarType.dateTimeOffset.sqlName
    else do return .plain (← scalar type value attr)
  | _ => do return .plain (← scalar type value attr)

/-- The literal of a scalar. -/
def scalarLiteral (type : ScalarType) (value : Document) (attr : String) :
    Except PlanError String :=
  match value with
  | .null => .ok "NULL"
  | .bool b => .ok (if b then "TRUE" else "FALSE")
  | _ =>
    if type.isInteger then do return toString (← integer value attr).val
    else if type.isDecimal then do return (← decimal value attr).plainText
    else if type.isDate || type = .dateTimeOffset then do
      return "'" ++ (← timestamp value attr) ++ "'"
    else
      match value with
      | .num n => .ok n.text
      | .str s => .ok (Text.literal s)
      | _ => malformed (.kindExpected attr .scalar value)

/-- The literal a computed attribute is compared with. -/
def literal (type : ScalarType) (op : Operator) (value : Document) (attr : String) :
    Except PlanError String :=
  match value with
  | .arr items =>
    match op.isRange, items with
    | true, [low, high] => do
      let low ← scalarLiteral type low attr
      return low ++ " AND " ++ (← scalarLiteral type high attr)
    | _, items => do
      return "(" ++ ", ".intercalate (← items.mapM (scalarLiteral type · attr)) ++ ")"
  | .str s =>
    if op.isPattern then .ok (Text.literal (op.pattern s)) else scalarLiteral type value attr
  | _ => scalarLiteral type value attr

end RelQuery.Operand

import RelQuery.Text.Blank
import RelQuery.Text.Case

/-!
# Scalar types

The types of attributes, and what each means for the values compared with them.
-/

namespace RelQuery

inductive ScalarType
  | integer | tinyInt | smallInt | bigInt
  | decimal | float | double | real
  | string | text | char
  | boolean
  /-- Date and time. -/
  | date
  | dateOnly
  | time
  | dateTimeOffset
  | uuid
  | json | jsonb
  | blob
  | enum
  | other (name : String)
  deriving DecidableEq, Inhabited

namespace ScalarType

/-- The types by the names a schema may give them. -/
def names : List (String × ScalarType) := [
  ("INTEGER", .integer), ("INT", .integer), ("MEDIUMINT", .integer),
  ("TINYINT", .tinyInt), ("SMALLINT", .smallInt), ("BIGINT", .bigInt),
  ("DECIMAL", .decimal), ("NUMERIC", .decimal), ("FLOAT", .float),
  ("DOUBLE", .double), ("DOUBLE PRECISION", .double), ("REAL", .real),
  ("STRING", .string), ("VARCHAR", .string), ("CITEXT", .string),
  ("TEXT", .text), ("CHAR", .char), ("BOOLEAN", .boolean), ("BOOL", .boolean),
  ("DATE", .date), ("TIMESTAMP", .date), ("TIMESTAMPTZ", .date), ("DATETIME", .date),
  ("DATEONLY", .dateOnly), ("TIME", .time), ("DATETIMEOFFSET", .dateTimeOffset),
  ("UUID", .uuid), ("UUIDV1", .uuid), ("UUIDV4", .uuid),
  ("JSON", .json), ("JSONB", .jsonb), ("BLOB", .blob), ("BYTEA", .blob), ("ENUM", .enum)]

/-- Reads a name such as `decimal(10,2)`: letter case, parameters and outer blanks do not count. -/
def parse (name : String) : ScalarType :=
  let base := Text.toUpper (.ofList (Text.trim (name.toList.takeWhile (· ≠ '('))))
  (names.lookup base).getD (.other base)

def isInteger : ScalarType → Bool
  | .integer | .tinyInt | .smallInt | .bigInt => true
  | _ => false

/-- Types whose values are compared as floating point. -/
def isDecimal : ScalarType → Bool
  | .decimal | .float | .double | .real => true
  | _ => false

/-- Documents: path tokens past such an attribute are keys inside it. -/
def isStructured : ScalarType → Bool
  | .json | .jsonb => true
  | _ => false

def isDate : ScalarType → Bool
  | .date | .dateOnly => true
  | _ => false

def sqlName : ScalarType → String
  | .integer => "INTEGER"
  | .tinyInt => "TINYINT"
  | .smallInt => "SMALLINT"
  | .bigInt => "BIGINT"
  | .decimal => "DECIMAL"
  | .float => "FLOAT"
  | .double => "DOUBLE PRECISION"
  | .real => "REAL"
  | .string => "VARCHAR"
  | .text => "TEXT"
  | .char => "CHAR"
  | .boolean => "BOOLEAN"
  | .date => "TIMESTAMPTZ"
  | .dateOnly => "DATE"
  | .time => "TIME"
  | .dateTimeOffset => "DATETIMEOFFSET"
  | .uuid => "UUID"
  | .json => "JSON"
  | .jsonb => "JSONB"
  | .blob => "BYTEA"
  | .enum => "TEXT"
  | .other name => name

/-- The cast of a placeholder compared with a column of this type. -/
def placeholderCast? (t : ScalarType) : Option String :=
  if t.isInteger then some "bigint"
  else if t.isDecimal then some "numeric"
  else
    match t with
    | .date | .dateTimeOffset => some "timestamptz"
    | .dateOnly => some "date"
    | .time => some "time"
    | .boolean => some "boolean"
    | .uuid => some "uuid"
    | .json | .jsonb => some "jsonb"
    | _ => none

end ScalarType

end RelQuery

import RelQuery.Calendar.Basic
import RelQuery.Document.Reader
import RelQuery.Rows.Session

/-!
# Cells

The values of a result set as the database sends them, by the types of their columns: times as
counts from 1970, identifiers as digits.
-/

namespace RelQuery

inductive CellType
  | integer
  /-- A number of single precision. -/
  | single
  | double
  | bool
  | uuid
  /-- Microseconds since 1970, in UTC or at no offset. -/
  | timestamp (zoned : Bool)
  /-- Days since 1970. -/
  | date
  /-- Microseconds since midnight. -/
  | time
  | text
  | document
  /-- A type whose values are not read. -/
  | unread
  deriving DecidableEq

namespace CellType

def ofName (name : String) : CellType :=
  match name with
  | "INT2" | "INT4" | "INT8" => integer
  | "FLOAT4" => single
  | "FLOAT8" => double
  | "BOOL" => bool
  | "UUID" => uuid
  | "TIMESTAMPTZ" => timestamp true
  | "TIMESTAMP" => timestamp false
  | "DATE" => date
  | "TIME" => time
  | "TEXT" | "VARCHAR" | "BPCHAR" | "NAME" => text
  | "JSON" | "JSONB" => document
  | _ => unread

/-- The places of hyphens in an identifier of 32 digits. -/
def hyphens : List Nat := [8, 12, 16, 20]

/-- An identifier in small digits and hyphens, from its digits; missing ones are zero. -/
def uuidText (s : String) : String :=
  let ds := (s.toList.map Char.toLower).filter fun c => (Document.hexValue? c).isSome
  let ds := (ds ++ List.replicate 32 '0').take 32
  String.ofList <| ds.zipIdx.flatMap fun (c, i) => if hyphens.contains i then ['-', c] else [c]

/-- A double as a document; `null` if it is out of range. -/
def ofDouble (x? : Option Binary64) : Document := (x?.map (.num ∘ .float)).getD .null

/-- The document that stands for a cell. -/
def read (type : CellType) (cell : Document) : Document :=
  match type, cell with
  | .integer, .num n => .num n
  | .single, .num n => ofDouble (n.toBinary64?.bind (·.toSingle?))
  | .double, .num n => ofDouble n.toBinary64?
  | .bool, .bool b => .bool b
  | .uuid, .str s => .str (uuidText s)
  | .timestamp zoned, .num (.int n _ _) =>
    let t := Calendar.Timestamp.ofMicros n
    .str (if zoned then t.text else t.localText)
  | .date, .num (.int n _ _) => .str (Calendar.Date.ofDays n).text
  | .time, .num (.int n _ _) => .str (Calendar.Clock.ofMicros n.toNat).text
  | .text, .str s => .str s
  | .document, d => d
  | _, _ => .null

end CellType

/-- The rows of a result set, each with a value for every column. -/
def Reply.ofTable (columns : List (String × CellType)) (table : List (List Document)) : Reply :=
  .rows <| table.map fun cells =>
    Fields.ofList ((columns.zip cells).map fun ((name, type), cell) => (name, type.read cell))

end RelQuery

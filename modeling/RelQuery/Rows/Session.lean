import RelQuery.Error
import RelQuery.Rows.Assemble
import RelQuery.Statement.Sql

/-!
# Database sessions

What a database answers to the statements it is asked, one after the other.
-/

namespace RelQuery

/-- A parameter as it is sent to the database. -/
inductive Bind
  | null
  | bool (b : Bool)
  | int (n : Bigint)
  | float (x : Binary64)
  | text (s : String)
  | document (d : Document)

namespace Bind

def ofDocument : Document → Bind
  | .null => .null
  | .bool b => .bool b
  | .num n =>
    match n.toBigint?, n.toBinary64? with
    | some i, _ => .int i
    | none, some x => .float x
    | none, none => .text n.text
  | .str s => .text s
  | d => .document d

/-- The type under which a parameter is sent. -/
def typeName : Bind → String
  | .null | .text _ => "TEXT"
  | .bool _ => "BOOL"
  | .int _ => "INT8"
  | .float _ => "FLOAT8"
  | .document _ => "JSONB"

end Bind

/-- The answer to one statement. -/
inductive Reply
  | rows (rows : List Row)
  | refused (message : String)

/-- A database in the course of a request. -/
structure Session where
  /-- Why no connection can be made, if none can. -/
  unreachable : Option String := none
  /-- The answers still to come; after the last one no statement finds a row. -/
  replies : List Reply := []
  asked : List Statement := []

/-- A computation that asks a database. What was asked before an error is kept. -/
abbrev Exchange := ExceptT Error (StateM Session)

namespace Exchange

/-- A step that may fail without asking. -/
def ofPlan {α : Type} : Except PlanError α → Exchange α
  | .ok a => pure a
  | .error e => throw (.plan e)

/-- Makes sure that there is a connection. -/
def connect : Exchange Unit := do
  match (← get).unreachable with
  | some reason => throw (.database (.unreachable reason))
  | none => pure ()

/-- The rows that a statement finds. -/
def ask (q : Statement) : Exchange (List Row) := do
  connect
  let session ← get
  set { session with replies := session.replies.tail, asked := session.asked ++ [q] }
  match session.replies.head? with
  | none => return []
  | some (.rows rows) => return rows
  | some (.refused message) => throw (.database (.refused message))

end Exchange

end RelQuery

import RelQuery.Plan.Document
import RelQuery.Rows.Load
import RelQuery.Schema.Build
import RelQuery.Schema.Decode
import RelQuery.Schema.Environment
import RelQuery.Selection.Decode

/-!
# The command line

A run takes the text of a configuration and the text of one request, prints the plan of the request
and its statement, and with a database the rows it finds.
-/

namespace RelQuery

/-- A query written for the command line. -/
structure Request where
  model : String
  field : String := "list"
  selections : List Selection := []
  query : Option Document := none
  /-- Rows are to be counted, not listed. -/
  count : Bool := false
  /-- The values of variables. -/
  bindings : Fields := []

namespace Request

/-- The arguments of a field with this query. -/
def arguments (query : Option Document) : List (String × Argument) :=
  query.toList.map fun q => ("query", .ofDocument q)

/-- A selected association, given how its selections are read. -/
def association (selection : Draft → Read Selection) (d : Draft) : Read Selection := do
  let f ← d.record ["name", "query", "selections"] ["name"]
    (fun (f : Field) key d =>
      match key with
      | "name" => return { f with name := ← d.text }
      | "query" => return { f with arguments := arguments (← d.optional Draft.value) }
      | _ => return { f with selections := ← d.list selection })
    { name := "" }
  return f.toSelection

/-- A selection: the name of an attribute, or an object that selects an association; `depth` bounds
how deep they stand in each other. -/
def selection : Nat → Draft → Read Selection
  | 0, _ => .error .unreadable
  | depth + 1, d =>
    match d with
    | .str (some name) => .ok (.field name none [] [])
    | .obj _ _ => if d.document?.isSome then association (selection depth) d else .error .unreadable
    | _ => .error .unreadable

def ofDraft : Draft → Read Request :=
  Draft.record ["model", "field", "selections", "query", "count", "variables"]
    ["model", "selections"]
    (fun r key d =>
      match key with
      | "model" => return { r with model := ← d.text }
      | "field" => return { r with field := ← d.text }
      | "selections" => return { r with selections := ← d.list (selection Document.maxDepth) }
      | "query" => return { r with query := ← d.optional Draft.value }
      | "count" => return { r with count := ← d.flag }
      | _ => return { r with bindings := ← d.object })
    { model := "" }

/-- The request a text holds. -/
def read? (s : String) : Option Request :=
  match Draft.read s with
  | (draft, true) => (ofDraft draft).toOption
  | (_, false) => none

/-- The plan that answers a request. -/
def plan (s : Schema) (r : Request) : Except PlanError Plan :=
  let field : Field :=
    { name := r.field, arguments := arguments r.query, selections := r.selections }
  let info : ExecutionInfo := { bindings := r.bindings }
  if r.count then Query.count s r.model field info else Query.rootList s r.model field info

end Request

namespace Console

/-- What a run prints, whether it succeeds, and the database as it leaves it. -/
structure Outcome where
  ok : Bool
  lines : List String := []
  database : Option Session := none

def Outcome.output (o : Outcome) : String := String.join (o.lines.map (· ++ "\n"))

/-- What is printed of the answer of a database. -/
def answer (s : Schema) (r : Request) (p : Plan) : Exchange String := do
  Exchange.connect
  if r.count then return "count: " ++ toString (← p.countRows s)
  else return (Document.arr (← p.findAll s)).pretty

/-- The schema of a configuration under the settings of the environment. -/
def schema (env : String → Option String) (config : String) : Except ConfigError Schema := do
  let config ← Config.load config
  Schema.build { config with options := ← config.options.override env }

/-- Prints the plan of a request and its statement, and asks the database, if there is one. -/
def execute (s : Schema) (r : Request) (database : Option Session) : Outcome :=
  match r.plan s with
  | .error e =>
    { ok := true, lines := [(Document.obj [("errors", .arr [(Error.plan e).document])]).pretty]
      database }
  | .ok p =>
    let planned := [p.document.pretty]
    match p.statement s with
    | .error _ => { ok := false, lines := planned, database }
    | .ok q =>
      let stated := planned ++ [q.text, "params: " ++ (Document.arr q.params).compact]
      match database with
      | none => { ok := true, lines := stated }
      | some session =>
        match (answer s r p).run session with
        | (.ok found, session) => { ok := true, lines := stated ++ [found], database := session }
        | (.error _, session) => { ok := false, lines := stated, database := session }

/-- One run. A text that is missing or cannot be read ends it with nothing printed. -/
def run (env : String → Option String) (config request : Option String)
    (database : Option Session) : Outcome :=
  match config.bind fun text => (schema env text).toOption with
  | none => { ok := false, database }
  | some s =>
    match request.bind Request.read? with
    | none => { ok := false, database }
    | some r => execute s r database

end Console

end RelQuery

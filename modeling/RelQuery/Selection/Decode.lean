import RelQuery.Document.Reader
import RelQuery.Document.Record
import RelQuery.Events
import RelQuery.Selection.Basic

/-!
# Reading selections

Arguments, fields, selections, fragments and events as documents say them.
-/

namespace RelQuery

namespace Argument

mutual

/-- An argument as a request has it. An object with a name under `$var` is a variable, whatever else
it holds. -/
def read : Document → Argument
  | .arr items => .list (readItems items)
  | .obj fields =>
    match fields.lookup "$var" with
    | some (.str name) => .var name
    | _ => .object (readFields fields)
  | value => .scalar value

def readItems : List Document → List Argument
  | [] => []
  | d :: ds => read d :: readItems ds

def readFields : List (String × Document) → List (String × Argument)
  | [] => []
  | (k, d) :: fs => (k, read d) :: readFields fs

end

mutual

/-- An argument as the text of a request has it, where keys may be repeated: a variable has one name
under `$var`, and no more. -/
def ofDraft? : Draft → Option Argument
  | .arr false items => (ofItemDrafts? items).map .list
  | .obj false fields => do
    let entries ← ofFieldDrafts? fields
    match fields.filter (·.1 == some "$var") with
    | [(_, .str (some name))] => return .var name
    | _ => return .object (Draft.lastOfEach entries)
  | d => d.document?.map .scalar

def ofItemDrafts? : List Draft → Option (List Argument)
  | [] => some []
  | d :: ds => do return (← ofDraft? d) :: (← ofItemDrafts? ds)

def ofFieldDrafts? : List (Option String × Draft) → Option (List (String × Argument))
  | [] => some []
  | (k, d) :: fs => do
    let k ← k
    return (k, ← ofDraft? d) :: (← ofFieldDrafts? fs)

end

def ofDraft (d : Draft) : Read Argument :=
  match ofDraft? d with
  | some a => .ok a
  | none => .error .unreadable

mutual

/-- An argument given by its value. Only an object with nothing but a name under `$var` is a
variable. -/
def ofDocument : Document → Argument
  | .arr items => .list (ofItems items)
  | .obj [("$var", .str name)] => .var name
  | .obj fields => .object (ofFields fields)
  | value => .scalar value

def ofItems : List Document → List Argument
  | [] => []
  | d :: ds => ofDocument d :: ofItems ds

def ofFields : List (String × Document) → List (String × Argument)
  | [] => []
  | (k, d) :: fs => (k, ofDocument d) :: ofFields fs

end

mutual

def document : Argument → Document
  | .var name => .obj [("$var", .str name)]
  | .scalar value => value
  | .list items => .arr (documents items)
  | .object fields => .obj (fieldDocuments fields)

def documents : List Argument → List Document
  | [] => []
  | a :: as => document a :: documents as

def fieldDocuments : List (String × Argument) → List (String × Document)
  | [] => []
  | (k, a) :: fs => (k, document a) :: fieldDocuments fs

end

end Argument

/-- The kinds of a selection, in the order in which a number may stand for them. -/
inductive SelectionKind
  | field
  | spread
  | inline
  deriving DecidableEq

namespace SelectionKind

def name : SelectionKind → String
  | .field => "Field"
  | .spread => "FragmentSpread"
  | .inline => "InlineFragment"

def all : List SelectionKind := [.field, .spread, .inline]

/-- A kind by its name; inside another selection also by its place. -/
def read (nested : Bool) : Draft → Read SelectionKind
  | .str (some s) =>
    match all.find? (·.name == s) with
    | some k => .ok k
    | none => .error .unreadable
  | .num (some n) =>
    match n.toNat?.bind (all[·]?) with
    | some k => if nested then .ok k else .error .unreadable
    | none => .error .unreadable
  | _ => .error .unreadable

end SelectionKind

/-- A field, given how its selections are read. -/
def Field.readWith (selection : Draft → Read Selection) : Draft → Read Field :=
  Draft.record ["name", "alias", "arguments", "selections"] ["name"]
    (fun f key d =>
      match key with
      | "name" => return { f with name := ← d.text }
      | "alias" => return { f with label := ← d.optional Draft.text }
      | "arguments" => return { f with arguments := ← d.table Argument.ofDraft }
      | _ => return { f with selections := ← d.list selection })
    { name := "" }

namespace Selection

/-- The name of a spread. -/
def spreadName : Draft → Read String :=
  Draft.record ["name"] ["name"] (fun _ _ d => d.text) ""

/-- An inline fragment, given how its selections are read. -/
def inlineWithin (selection : Draft → Read Selection) :
    Draft → Read (Option String × List Selection) :=
  Draft.record ["typeCondition", "selections"] ["selections"]
    (fun f key d =>
      match key with
      | "typeCondition" => return (← d.optional Draft.text, f.2)
      | _ => return (f.1, ← d.list selection))
    (none, [])

/-- A selection with at most `depth` selections inside each other. -/
def read : Nat → Bool → Draft → Read Selection
  | 0, _, _ => .error .unreadable
  | depth + 1, nested, d => do
    let (kind, rest) ← d.tagged "kind"
    match ← SelectionKind.read nested kind with
    | .field => return (← Field.readWith (read depth true) rest).toSelection
    | .spread => return .spread (← spreadName rest)
    | .inline =>
      let (typeCondition, selections) ← inlineWithin (read depth true) rest
      return .inline typeCondition selections

/-- A selection of a request, whose brackets nest no deeper than those of any text that is read. -/
def ofDraft (d : Draft) : Read Selection := read Document.maxDepth false d

mutual

def document : Selection → Document
  | .field name label arguments selections =>
    .obj ([("kind", .str SelectionKind.field.name), ("name", .str name)] ++
      (label.toList.map fun l => ("alias", .str l)) ++
      [("arguments", .obj (Argument.fieldDocuments arguments)),
        ("selections", .arr (documents selections))])
  | .spread name => .obj [("kind", .str SelectionKind.spread.name), ("name", .str name)]
  | .inline typeCondition selections =>
    .obj [("kind", .str SelectionKind.inline.name),
      ("typeCondition", (typeCondition.map Document.str).getD .null),
      ("selections", .arr (documents selections))]

def documents : List Selection → List Document
  | [] => []
  | s :: ss => document s :: documents ss

end

end Selection

namespace Field

def ofDraft : Draft → Read Field := readWith Selection.ofDraft

def document (f : Field) : Document :=
  .obj ([("name", .str f.name)] ++ (f.label.toList.map fun l => ("alias", .str l)) ++
    [("arguments", .obj (Argument.fieldDocuments f.arguments)),
      ("selections", .arr (Selection.documents f.selections))])

end Field

def Fragment.ofDraft : Draft → Read Fragment :=
  Draft.record ["name", "typeCondition", "selections"] ["name", "selections"]
    (fun f key d =>
      match key with
      | "name" => return { f with name := ← d.text }
      | "typeCondition" => return { f with typeCondition := ← d.optional Draft.text }
      | _ => return { f with selections := ← d.list Selection.ofDraft })
    { name := "", selections := [] }

def ExecutionInfo.ofDraft : Draft → Read ExecutionInfo :=
  Draft.record ["fragments", "variables"] []
    (fun info key d =>
      match key with
      | "fragments" => return { info with fragments := ← d.table Fragment.ofDraft }
      | _ => return { info with bindings := ← d.object })
    {}

def Event.ofDraft : Draft → Read Event :=
  Draft.record ["model", "ids", "instances"] ["model"]
    (fun e key d =>
      match key with
      | "model" => return { e with model := ← d.text }
      | "ids" => return { e with ids := ← d.list Draft.value }
      | _ => return { e with instances := ← d.list Draft.value })
    { model := "" }

end RelQuery

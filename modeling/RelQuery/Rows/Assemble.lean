import RelQuery.Document.Printer
import RelQuery.Include.Basic
import RelQuery.Schema.Basic

/-!
# Assembling rows

Joined rows come flat, one for each combination of base row and joined rows. Assembling puts the
joined rows under the base row they belong to, each of them once.
-/

namespace RelQuery

abbrev Row := Fields

namespace Rows

/-- The parts of a column key between its points. -/
def splitKey : List Char → List (List Char)
  | [] => [[]]
  | c :: cs =>
    match splitKey cs with
    | part :: parts => if c = '.' then [] :: part :: parts else (c :: part) :: parts
    | [] => [[c]]

/-- Sets a value below the objects that the path leads through. A path that meets anything else is
passed over. -/
def insertPath (value : Document) : List String → Fields → Fields
  | [], fields => fields
  | [last], fields => fields.insert last value
  | key :: path, fields =>
    match fields.lookup key with
    | none => fields.insert key (.obj (insertPath value path []))
    | some (.obj inner) => fields.insert key (.obj (insertPath value path inner))
    | some _ => fields

/-- The row with its columns in nested objects. -/
def nest (row : Row) : Row :=
  row.foldl (fun acc (key, value) =>
    insertPath value ((splitKey key.toList).map String.ofList) acc) []

mutual

/-- Whether a value says nothing: `null`, an empty array, or an object of such values. -/
def isBlank : Document → Bool
  | .null => true
  | .arr items => items.isEmpty
  | .obj fields => allBlank fields
  | _ => false

/-- Whether an outer join has found no row. -/
def allBlank : List (String × Document) → Bool
  | [] => true
  | (_, value) :: fields => isBlank value && allBlank fields

end

/-- A base row, and the joined rows under it by the name of their association. -/
structure Group where
  /-- The text by which rows are recognised as the same. -/
  identity : String
  own : Row
  children : List (String × List Row)

/-- Adds a row to those of an association. -/
def addChild (children : List (String × List Row)) (child : String × Row) :
    List (String × List Row) :=
  match children with
  | [] => [(child.1, [child.2])]
  | c :: cs =>
    if c.1 = child.1 then (c.1, c.2 ++ [child.2]) :: cs else c :: addChild cs child

/-- Takes the joined rows out of a row. -/
def takeJoined : List Include → Row → Row × List (String × Row)
  | [], row => (row, [])
  | n :: ns, row =>
    let child := match row.lookup n.name with
      | some (.obj fields) => if allBlank fields then [] else [(n.name, fields)]
      | _ => []
    let (row, children) := takeJoined ns (row.erase n.name)
    (row, child ++ children)

/-- The text of the primary key, or of the whole row if it has none. -/
def identity (m : Model) (row : Row) : String :=
  match row.lookup m.primaryKey with
  | none | some .null => (Document.obj row).compact
  | some value => value.compact

/-- Adds the rows under a base row to the group of the same identity. -/
def addToGroup (identity : String) (own : Row) (children : List (String × Row)) :
    List Group → List Group
  | [] => [⟨identity, own, children.foldl addChild []⟩]
  | g :: gs =>
    if g.identity = identity then { g with children := children.foldl addChild g.children } :: gs
    else g :: addToGroup identity own children gs

/-- The rows by their base row, in order of the first of each. -/
def groups (m : Model) (joined : List Include) (rows : List Row) : List Group :=
  rows.foldl (fun acc row =>
    let (own, children) := takeJoined joined row
    addToGroup (identity m own) own children acc) []

mutual

/-- A node that selects nothing, nor does any below it: it serves a filter or an order only. -/
def isPathOnly : Include → Bool
  | ⟨_, _, _, attributes, _, includes, _, _, _, _⟩ => attributes.isEmpty && allPathOnly includes

def allPathOnly : List Include → Bool
  | [] => true
  | n :: ns => isPathOnly n && allPathOnly ns

end

/-- The objects among some values. -/
def objects (values : List Document) : List Row :=
  values.filterMap fun
    | .obj fields => some fields
    | _ => none

/-- The value of an association: an array for many, else the only row or `null`. -/
def associationValue (kind : AssociationKind) (rows : List Document) : Document :=
  if kind.isMany then .arr rows else rows.head?.getD .null

mutual

/-- Puts the joined rows of a node under the base row of a group. -/
def fill (s : Schema) : Include → Group → Except PlanError Group
  | ⟨target, name, kind, attributes, _, includes, _, _, _, separate⟩, g =>
    if separate || (attributes.isEmpty && allPathOnly includes) then .ok g
    else do
      let m ← s.model target
      let below := groups m (includes.filter (!·.separate)) ((g.children.lookup name).getD [])
      let rows ← below.mapM fun b => do return .obj (← fillAll s includes b).own
      return { g with
        own := g.own.insert name (associationValue kind rows)
        children := g.children.filter (·.1 ≠ name) }

def fillAll (s : Schema) : List Include → Group → Except PlanError Group
  | [], g => .ok g
  | n :: ns, g => do fillAll s ns (← fill s n g)

end

/-- The rows of `m` from flat ones, with the rows of joined includes under them. -/
def assemble (s : Schema) (m : Model) (nodes : List Include) (rows : List Row) :
    Except PlanError (List Document) :=
  (groups m (nodes.filter (!·.separate)) (rows.map nest)).mapM fun g => do
    return .obj (← fillAll s nodes g).own

end Rows

end RelQuery

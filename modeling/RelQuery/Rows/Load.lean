import RelQuery.Plan.Basic
import RelQuery.Rows.Session
import RelQuery.Statement.Batch

/-!
# Loading rows

A plan is run by its statement; then each separate include is loaded by one statement for all rows
it belongs to, level by level.
-/

namespace RelQuery

namespace Rows

/-- What a row has under the name of an association. -/
inductive Slot
  /-- An array of this many values. -/
  | many (count : Nat)
  /-- An object. -/
  | one
  /-- Nothing, or a value that stands for nothing. -/
  | empty
  deriving DecidableEq

/-- A value with a field set, if it is an object. -/
def setField (name : String) (value : Document) : Document → Document
  | .obj fields => .obj (Fields.insert name value fields)
  | row => row

/-- The values under the name of an association in one row, and the row with `null` in their
place. -/
def takeFrom (name : String) (row : Document) : Document × List Document × Slot :=
  match row.get? name with
  | none => (row, [], .empty)
  | some (.arr items) => (setField name .null row, items, .many items.length)
  | some (.obj fields) => (setField name .null row, [.obj fields], .one)
  | some _ => (setField name .null row, [], .empty)

/-- Takes out the values that some rows have under the name of an association. -/
def takeChildren (name : String) (rows : List Document) :
    List Document × List Document × List Slot :=
  let taken := rows.map (takeFrom name)
  (taken.map (·.1), taken.flatMap (·.2.1), taken.map (·.2.2))

/-- Puts values back to where they were taken from. -/
def putChildren (name : String) : List Document → List Slot → List Document → List Document
  | row :: rows, .many n :: slots, children =>
    setField name (.arr (children.take n)) row :: putChildren name rows slots (children.drop n)
  | row :: rows, .one :: slots, children =>
    setField name (children.head?.getD .null) row :: putChildren name rows slots (children.drop 1)
  | row :: rows, .empty :: slots, children => row :: putChildren name rows slots children
  | rows, _, _ => rows

mutual

/-- Whether a node is loaded separately, or one below it is. -/
def isSeparated : Include → Bool
  | ⟨_, _, _, _, _, includes, _, _, _, separate⟩ => separate || anySeparated includes

def anySeparated : List Include → Bool
  | [] => false
  | n :: ns => isSeparated n || anySeparated ns

end

/-- The keys of rows, each once. -/
def parentKeys (key : String) (rows : List Document) : List Document :=
  Document.distinctByText ((rows.filterMap (·.get? key)).filter (!·.isNull))

/-- Adds a fetched row to those of its owner, whose key it carries. -/
def addOwned (owned : List (String × List Row)) (row : Row) : List (String × List Row) :=
  let row := row.erase rowNumberColumn
  let owner := ((row.lookup parentKeyColumn).getD .null).compact
  addChild owned (owner, row.erase parentKeyColumn)

/-- Distributes rows to owners, `count` to each. -/
def distribute : List (String × Nat) → List Document → List (String × List Document)
  | [], _ => []
  | (owner, count) :: owners, rows => (owner, rows.take count) :: distribute owners (rows.drop count)

/-- Gives a row the rows that it owns. -/
def attachOwned (n : Include) (key : String) (owned : List (String × List Document))
    (row : Document) : Document :=
  let owner := match row.get? key with
    | some value => value.compact
    | none => ""
  setField n.name (associationValue n.kind ((owned.lookup owner).getD [])) row

/-- Loads a separate node for rows of `parent`; `below` loads what is below it. -/
def fetch (s : Schema) (parent target : Model) (n : Include) (rows : List Document)
    (below : List Document → Exchange (List Document)) : Exchange (List Document) := do
  let assoc ← Exchange.ofPlan (parent.requireAssociation n.name)
  let key := assoc.parentKey parent
  let keys := parentKeys key rows
  let fetched ←
    if keys.isEmpty then pure []
    else do Exchange.ask (← Exchange.ofPlan (n.batchStatement s parent keys))
  let owned := fetched.foldl addOwned []
  let assembled ← Exchange.ofPlan <| owned.mapM fun (owner, rows) => do
    return (owner, ← assemble s target n.includes rows)
  let children ← below (assembled.flatMap (·.2))
  let owned := distribute (assembled.map fun (owner, rows) => (owner, rows.length)) children
  return rows.map (attachOwned n key owned)

mutual

/-- Loads a node, if it is separate, and all separate nodes below it into rows of `m`. -/
def load (s : Schema) (m : Model) : Include → List Document → Exchange (List Document)
  | ⟨target, name, kind, attributes, filter, includes, required, limit, offset, separate⟩, rows => do
    let n : Include :=
      ⟨target, name, kind, attributes, filter, includes, required, limit, offset, separate⟩
    let below ← Exchange.ofPlan (s.model target)
    if separate then fetch s m below n rows (loadAll s below includes)
    else if anySeparated includes then
      let (rows, children, slots) := takeChildren name rows
      return putChildren name rows slots (← loadAll s below includes children)
    else return rows

def loadAll (s : Schema) (m : Model) : List Include → List Document → Exchange (List Document)
  | [], rows => pure rows
  | n :: ns, rows => do loadAll s m ns (← load s m n rows)

end

end Rows

namespace Plan

/-- The rows of a plan, with the rows of all includes under them. -/
def findAll (s : Schema) (p : Plan) : Exchange (List Document) := do
  let m ← Exchange.ofPlan (s.model p.model)
  let flat ← Exchange.ask (← Exchange.ofPlan (p.statement s))
  let rows ← Exchange.ofPlan (Rows.assemble s m p.includes flat)
  Rows.loadAll s m p.includes rows

/-- The number of base rows that the filter of a plan admits. -/
def countRows (s : Schema) (p : Plan) : Exchange Nat := do
  let counting := if p.isCount then p else { p with attributes := [.count], group := [] }
  let rows ← Exchange.ask (← Exchange.ofPlan (counting.statement s))
  match rows.head?.bind (·.lookup countColumn) with
  | some (.num n) => return n.toNat?.getD 0
  | _ => return 0

end Plan

end RelQuery

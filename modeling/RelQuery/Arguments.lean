import RelQuery.Plan.Basic
import RelQuery.Selection.Basic

/-!
# Query arguments

The `query` argument of a field: filter, grouping, order and page.
-/

namespace RelQuery

structure Arguments where
  filter : Option Document := none
  /-- Associations that a row must have nothing of. -/
  without : List String := []
  group : List String := []
  order : List (String × Direction) := []
  limit : Option Nat := none
  offset : Option Nat := none
  /-- Aggregates of attributes, in place of those their types have. -/
  transform : List (String × Aggregate) := []
  required : Option Bool := none

namespace Arguments

/-- A number of rows: a natural number that a `bigint` can hold, or `null` for none. -/
def count (key : String) : Document → Except PlanError (Option Nat)
  | .null => .ok none
  | .num n =>
    match n.toNat? with
    | some k => if k < Bigint.bound then .ok (some k) else malformed (.countRange key n)
    | none => malformed (.countRange key n)
  | value => malformed (.countShape key value)

/-- A name, alone or as the first item of an array. -/
def nameEntry (key : String) : Document → Except PlanError String
  | .str s => .ok s
  | .arr (.str s :: _) => .ok s
  | value => malformed (.nameEntry key value)

def names (key : String) : Document → Except PlanError (List String)
  | .arr items => items.mapM (nameEntry key)
  | _ => malformed (.namesShape key)

def orderEntry : Document → Except PlanError (String × Direction)
  | .arr [.str field, .str direction] =>
    match Direction.parse? direction with
    | some d => .ok (field, d)
    | none => malformed (.orderDirection direction)
  | value => malformed (.orderEntry value)

def orderEntries : Document → Except PlanError (List (String × Direction))
  | .arr items => items.mapM orderEntry
  | _ => malformed .orderShape

def transformEntry (entry : String × Document) : Except PlanError (String × Aggregate) :=
  let aggregate? := match entry.2 with
    | .str s => Aggregate.parse? s
    | _ => none
  match aggregate? with
  | some a => .ok (entry.1, a)
  | none => malformed (.transformEntry entry.1 entry.2)

def transforms : Document → Except PlanError (List (String × Aggregate))
  | .obj fields => fields.mapM transformEntry
  | _ => malformed .transformShape

def flag : Document → Except PlanError (Option Bool)
  | .null => .ok none
  | .bool b => .ok (some b)
  | value => malformed (.requiredShape value)

/-- Takes in one key of the argument. -/
def set (args : Arguments) (entry : String × Document) : Except PlanError Arguments :=
  let (key, value) := entry
  match key with
  | "where" => .ok { args with filter := if value.isNull then none else some value }
  | "without" => do return { args with without := ← names key value }
  | "group" => do return { args with group := ← names key value }
  | "order" => do return { args with order := ← orderEntries value }
  | "limit" => do return { args with limit := ← count key value }
  | "offset" => do return { args with offset := ← count key value }
  | "transform" => do return { args with transform := ← transforms value }
  | "required" => do return { args with required := ← flag value }
  | key => malformed (.unknownArgument key)

def parse : Document → Except PlanError Arguments
  | .obj fields => do
    let args ← fields.foldlM set {}
    if !args.transform.isEmpty && args.group.isEmpty then malformed .transformWithoutGroup
    else return args
  | value => malformed (.argumentsShape value)

/-- The `query` argument of a field; none if it is missing or `null`. -/
def ofField (f : Field) (info : ExecutionInfo) : Except PlanError (Option Arguments) :=
  match f.argument? "query" info.bindings with
  | none | some .null => .ok none
  | some value => some <$> parse value

/-- Whether a page is asked for: an association is then loaded by a query of its own. -/
def isPaginated (args : Arguments) : Bool := args.limit.isSome || args.offset.isSome

end Arguments

/-- Whether an association may be joined: it is not if the field says `optimized: false`. -/
def Field.isOptimized (f : Field) (info : ExecutionInfo) : Bool :=
  match f.argument? "optimized" info.bindings with
  | some (.bool false) => false
  | _ => true

end RelQuery

import RelQuery.Include.Basic

/-!
# Query plans

What a query selects, joins, filters, groups and orders by, and which page of it is asked for.
-/

namespace RelQuery

inductive Aggregate
  | sum
  | max
  | min
  | avg
  | count
  deriving DecidableEq

namespace Aggregate

def all : List Aggregate := [sum, max, min, avg, count]

def name : Aggregate → String
  | .sum => "sum"
  | .max => "max"
  | .min => "min"
  | .avg => "avg"
  | .count => "count"

def sql : Aggregate → String
  | .sum => "SUM"
  | .max => "MAX"
  | .min => "MIN"
  | .avg => "AVG"
  | .count => "COUNT"

/-- Reads a name in any case. -/
def parse? (s : String) : Option Aggregate := all.find? (·.name == Text.toLower s)

/-- The aggregate of an attribute that a grouped query asks for without naming one. -/
def ofType : ScalarType → Aggregate
  | .decimal => .sum
  | .date | .dateOnly => .max
  | _ => .avg

end Aggregate

inductive Direction
  | asc
  | desc
  deriving DecidableEq

namespace Direction

def sql : Direction → String
  | .asc => "ASC"
  | .desc => "DESC"

/-- Reads a name in any case. -/
def parse? (s : String) : Option Direction := [asc, desc].find? (·.sql == Text.toUpper s)

end Direction

inductive SelectItem
  | column (name : String)
  | aggregate (func : Aggregate) (attr output : String)
  /-- The number of distinct primary keys. -/
  | count
  deriving DecidableEq

/-- The column of a count. -/
def countColumn : String := "__count__"

/-- The column under which an item appears in a row. -/
def SelectItem.output : SelectItem → String
  | .column name => name
  | .aggregate _ _ output => output
  | .count => countColumn

inductive OrderTarget
  /-- A column of the model reached through `hops`. -/
  | column (hops : List String) (model column : String)
  | expression (sql : String)
  deriving DecidableEq

structure OrderEntry where
  target : OrderTarget
  direction : Direction
  deriving DecidableEq

/-- What a selection needs, before any modifier. -/
structure PartialPlan where
  model : String
  /-- Requested attributes, and the keys that includes need. -/
  attributes : List String := []
  requested : List String := []
  includes : List Include := []
  deriving Inhabited

structure Plan where
  model : String
  attributes : List SelectItem := []
  includes : List Include := []
  filter : Option Filter := none
  group : List String := []
  order : List OrderEntry := []
  limit : Option Nat := none
  offset : Option Nat := none

namespace Plan

/-- The items with one more at the end, unless it is among them. -/
def addItem (items : List SelectItem) (item : SelectItem) : List SelectItem :=
  if item ∈ items then items else items ++ [item]

def isCount (p : Plan) : Bool := p.attributes.contains .count

end Plan

end RelQuery

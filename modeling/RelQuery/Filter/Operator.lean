/-!
# Comparison operators

The operators that a filter names by keys such as `_gtOp`.
-/

namespace RelQuery

inductive Operator
  | eq
  | ne
  | gt
  | gte
  | lt
  | lte
  | isIn
  | notIn
  | like
  | notLike
  | iLike
  | notILike
  | startsWith
  | endsWith
  | substring
  | between
  | notBetween
  | is
  | not
  deriving DecidableEq

namespace Operator

def all : List Operator := [eq, ne, gt, gte, lt, lte, isIn, notIn, like, notLike, iLike, notILike,
  startsWith, endsWith, substring, between, notBetween, is, not]

def name : Operator → String
  | .eq => "eq"
  | .ne => "ne"
  | .gt => "gt"
  | .gte => "gte"
  | .lt => "lt"
  | .lte => "lte"
  | .isIn => "in"
  | .notIn => "notIn"
  | .like => "like"
  | .notLike => "notLike"
  | .iLike => "iLike"
  | .notILike => "notILike"
  | .startsWith => "startsWith"
  | .endsWith => "endsWith"
  | .substring => "substring"
  | .between => "between"
  | .notBetween => "notBetween"
  | .is => "is"
  | .not => "not"

def ofName? (s : String) : Option Operator := all.find? (·.name == s)

def sql : Operator → String
  | .eq => "="
  | .ne => "<>"
  | .gt => ">"
  | .gte => ">="
  | .lt => "<"
  | .lte => "<="
  | .isIn => "IN"
  | .notIn => "NOT IN"
  | .like | .startsWith | .endsWith | .substring => "LIKE"
  | .notLike => "NOT LIKE"
  | .iLike => "ILIKE"
  | .notILike => "NOT ILIKE"
  | .between => "BETWEEN"
  | .notBetween => "NOT BETWEEN"
  | .is => "IS"
  | .not => "IS NOT"

/-- Operators whose operand is a list of any length, or of two. -/
def takesList : Operator → Bool
  | .isIn | .notIn | .between | .notBetween => true
  | _ => false

/-- Operators whose operand is a pair. -/
def isRange : Operator → Bool
  | .between | .notBetween => true
  | _ => false

/-- Operators that compare text with a pattern. -/
def isPattern : Operator → Bool
  | .like | .notLike | .iLike | .notILike | .startsWith | .endsWith | .substring => true
  | _ => false

/-- The pattern for a search text. -/
def pattern (op : Operator) (s : String) : String :=
  match op with
  | .startsWith => s ++ "%"
  | .endsWith => "%" ++ s
  | .substring => "%" ++ s ++ "%"
  | _ => s

theorem ofName?_name (op : Operator) : ofName? op.name = some op := by
  cases op <;> decide

end Operator

end RelQuery

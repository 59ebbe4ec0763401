import RelQuery.Error
import RelQuery.Schema.Config

/-!
# Expressions

The expression language of filters: names made of letters, digits and underscores, and calls of a
few functions. No other text can reach a statement through it.
-/

namespace RelQuery

namespace Expression

inductive Function
  | subtract
  | add
  | equals
  | concat
  | lower
  | upper
  | abs
  | coalesce
  deriving DecidableEq

namespace Function

def name : Function → String
  | .subtract => "subtract"
  | .add => "add"
  | .equals => "equals"
  | .concat => "concat"
  | .lower => "lower"
  | .upper => "upper"
  | .abs => "abs"
  | .coalesce => "coalesce"

def all : List Function := [subtract, add, equals, concat, lower, upper, abs, coalesce]

def ofName? (s : String) : Option Function := all.find? (·.name == s)

/-- The operator between the operands, or none for a call by name. -/
def operator? (dialect : Dialect) : Function → Option String
  | .subtract => some "-"
  | .add => some "+"
  | .equals => some "="
  | .concat => if dialect = .mssql then some "+" else none
  | _ => none

def sqlName : Function → String
  | .concat => "CONCAT"
  | .lower => "LOWER"
  | .upper => "UPPER"
  | .abs => "ABS"
  | .coalesce => "COALESCE"
  | .subtract | .add | .equals => ""

/-- Checks the number of arguments of a call. -/
def checkCount (dialect : Dialect) (f : Function) (count : Nat) : Except PlanError Unit :=
  match f.operator? dialect with
  | some operator => if count < 2 then malformed (.operandsMissing operator) else .ok ()
  | none =>
    let fits := match f with
      | .lower | .upper | .abs => count == 1
      | .coalesce => 1 ≤ count
      | _ => true
    if fits then .ok () else malformed (.argumentCount f.name)

end Function

end Expression

inductive Expression
  | atom (text : String)
  | call (function : Expression.Function) (args : List Expression)

namespace Expression

def isNameChar (c : Char) : Bool := c.isAlphanum || c == '_'

/-- Names, and nothing else, may stand in a statement as they are. -/
def isName (s : String) : Bool := !s.isEmpty && s.toList.all isNameChar

def checkName (s : String) : Except PlanError String :=
  if isName s then .ok s else .error (.unsafeLiteral s)

/-- The call of a function by its name. -/
def apply (dialect : Dialect) (name : String) (args : List Expression) :
    Except PlanError Expression :=
  match Function.ofName? name with
  | none => malformed (.unknownFunction name)
  | some f => do
    f.checkCount dialect args.length
    return .call f args

mutual

/-- Reads an object whose only key is `fn`, with a function name and arguments, or `literal`, with
a name. -/
def ofDocument (dialect : Dialect) : Document → Except PlanError Expression
  | .obj [(key, .arr items)] =>
    if key = "literal" then
      match items with
      | [.str name] => do return .atom (← checkName name)
      | [other] => .error (.unsafeLiteral other.compact)
      | _ => malformed .literalCount
    else if key = "fn" then
      match items with
      | .str name :: args => do
        let name ← checkName name
        apply dialect name (← arguments dialect args)
      | other :: _ => .error (.unsafeLiteral other.compact)
      | [] => malformed .functionMissing
    else malformed .expressionShape
  | _ => malformed .expressionShape

def arguments (dialect : Dialect) : List Document → Except PlanError (List Expression)
  | [] => .ok []
  | d :: ds => do
    let e ← match d with
      | .str s => .atom <$> checkName s
      | .num n => .atom <$> checkName n.text
      | .obj _ => ofDocument dialect d
      | other => .error (.unsafeLiteral other.compact)
    return e :: (← arguments dialect ds)

end

mutual

def sql (dialect : Dialect) : Expression → String
  | .atom text => text
  | .call f args =>
    match f.operator? dialect with
    | some operator => "(" ++ (" " ++ operator ++ " ").intercalate (sqls dialect args) ++ ")"
    | none => f.sqlName ++ "(" ++ ", ".intercalate (sqls dialect args) ++ ")"

def sqls (dialect : Dialect) : List Expression → List String
  | [] => []
  | e :: es => sql dialect e :: sqls dialect es

end

/-- The SQL text of an expression document. -/
def lower (dialect : Dialect) (d : Document) : Except PlanError String := do
  return (← ofDocument dialect d).sql dialect

end Expression

end RelQuery

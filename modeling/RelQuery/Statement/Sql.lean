import RelQuery.Computed
import RelQuery.Document.Printer

/-!
# SQL in pieces

SQL text before its placeholders are numbered: fixed text, names, columns and values. Placeholders
are numbered from left to right, and the parameters stand in the same order.
-/

namespace RelQuery

inductive Piece
  | text (s : String)
  /-- A quoted identifier. -/
  | name (s : String)
  | column (table column : String)
  /-- A placeholder for a value, with the type it is cast to. -/
  | value (v : Document) (cast : Option String)
  /-- A parameter that no placeholder refers to. -/
  | silent (v : Document)

abbrev Sql := List Piece

/-- SQL text with numbered placeholders, and their parameters. -/
structure Statement where
  text : String
  params : List Document

/-- A column of a table, by the name the table has in the statement. -/
structure ColumnRef where
  table : String
  column : String
  deriving DecidableEq

def ColumnRef.piece (c : ColumnRef) : Piece := .column c.table c.column

namespace Piece

/-- The value a piece binds. -/
def bound? : Piece → Option Document
  | .value v _ | .silent v => some v
  | _ => none

/-- The text of a piece after `n` parameters. -/
def write (n : Nat) : Piece → String
  | .text s => s
  | .name s => Text.identifier s
  | .column t c => columnText t c
  | .value _ none => "$" ++ toString (n + 1)
  | .value _ (some type) => "$" ++ toString (n + 1) ++ "::" ++ type
  | .silent _ => ""

end Piece

namespace Sql

/-- The text after `n` parameters. -/
def write : Nat → Sql → String
  | _, [] => ""
  | n, p :: ps => p.write n ++ write (if p.bound?.isSome then n + 1 else n) ps

def statement (ps : Sql) : Statement := ⟨write 0 ps, ps.filterMap (·.bound?)⟩

def join (separator : String) : List Sql → Sql
  | [] => []
  | [ps] => ps
  | ps :: rest => ps ++ .text separator :: join separator rest

/-- `"expression" AS "name"`. -/
def named (ps : Sql) (name : String) : Sql := ps ++ [.text " AS ", .name name]

def parenthesized (ps : Sql) : Sql := .text "(" :: ps ++ [.text ")"]

end Sql

end RelQuery

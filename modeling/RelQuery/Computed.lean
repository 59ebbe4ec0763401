import RelQuery.Filter.Operator
import RelQuery.Schema.Basic
import RelQuery.Text.Blank
import RelQuery.Text.Quoted

/-!
# Expressions of computed attributes

The expression of a computed attribute names columns of its model. Where it is used, they are put
behind the name that the model has there; quoted text, function names and names that are qualified
already stay as they are.
-/

namespace RelQuery

/-- The name that a model has in a statement when it is reached from `base` through `hops`. -/
def joinName (base : String) (hops : List String) : String := "->".intercalate (base :: hops)

/-- A column behind the name of its table. -/
def columnText (table column : String) : String :=
  Text.identifier table ++ "." ++ Text.identifier column

namespace Computed

/-- The length of a quoted text after its opening quote, closing quote included. Without a closing
quote the text ends at the first quote of the last doubled one, given by `fallback`. -/
def quotedLength? (q : Char) (fallback : Option Nat) (n : Nat) : List Char → Option Nat
  | [] => fallback
  | [c] => if c = q then some (n + 1) else fallback
  | c :: d :: cs =>
    if c = q then
      if d = q then quotedLength? q (some (n + 1)) (n + 2) cs else some (n + 1)
    else quotedLength? q fallback (n + 1) (d :: cs)

def isWordStart (c : Char) : Bool := c.isAlpha || c == '_'

def isWordChar (c : Char) : Bool := c.isAlphanum || c == '_'

/-- The length of the token at the head of a text: quoted text or a word. -/
def tokenLength? : List Char → Option Nat
  | [] => none
  | c :: cs =>
    if c = '\'' ∨ c = '"' then (quotedLength? c none 0 cs).map (· + 1)
    else if isWordStart c then some ((cs.takeWhile isWordChar).length + 1)
    else none

/-- Whether a token between these characters names a column of `m` on its own. -/
def isBareColumn (m : Model) (before : Option Char) (token after : List Char) : Bool :=
  m.attributes.any (fun a => !a.isComputed && a.column.toList == token) &&
    !(before = some '.' || before = some ':') &&
    !((Text.trimStart after).head? = some '(' || (Text.trimStart after).head? = some '.')

/-- Qualifies the tokens of a text that follows `before`; `fuel` is its length. -/
def qualifyFrom (m : Model) (table : String) : Nat → Option Char → List Char → List Char
  | 0, _, cs => cs
  | _, _, [] => []
  | fuel + 1, before, c :: cs =>
    match tokenLength? (c :: cs) with
    | none => c :: qualifyFrom m table fuel (some c) cs
    | some n =>
      let token := (c :: cs).take n
      let after := (c :: cs).drop n
      (if isBareColumn m before token after then (columnText table (.ofList token)).toList
        else token) ++ qualifyFrom m table fuel token.getLast? after

/-- The expression with the bare columns of `m` behind the name `table`. -/
def qualify (m : Model) (table expression : String) : String :=
  .ofList (qualifyFrom m table expression.length none expression.toList)

/-- The condition that compares an expression with a literal. Of an empty list no value is a
member. -/
def condition (m : Model) (table expression : String) (op : Operator) (literal : String)
    (negated : Bool) : String :=
  let positive :=
    if op = .isIn ∧ literal = "()" then "FALSE"
    else if op = .notIn ∧ literal = "()" then "TRUE"
    else "(" ++ qualify m table expression ++ ") " ++ op.sql ++ " " ++ literal
  if negated then "NOT (" ++ positive ++ ")" else positive

end Computed

end RelQuery

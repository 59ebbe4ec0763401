import RelQuery.Filter.Basic
import RelQuery.Schema.Basic
import RelQuery.Statement.Sql

/-!
# Conditions

The boolean structure of an SQL condition over conditions that are not taken apart, and the
condition that a filter stands for. Every operand of a connective stands in parentheses.
-/

namespace RelQuery

inductive Condition
  | atom (sql : Sql)
  | negation (operand : Condition)
  | logical (connective : Connective) (operands : List Condition)

def Connective.sql : Connective → String
  | .and => " AND "
  | .or => " OR "

/-- The value of a connective without operands. -/
def Connective.neutral : Connective → String
  | .and => "TRUE"
  | .or => "FALSE"

namespace Condition

/-- Induction on conditions, with the hypothesis for every operand of a connective. -/
@[induction_eliminator]
theorem induction {P : Condition → Prop} (atom : ∀ sql, P (.atom sql))
    (negation : ∀ c, P c → P (.negation c))
    (logical : ∀ k cs, (∀ c ∈ cs, P c) → P (.logical k cs)) (c : Condition) : P c :=
  Condition.rec atom negation logical (fun _ h => nomatch h)
    (fun _ _ h ih _ hc => (List.mem_cons.mp hc).elim (· ▸ h) (ih _)) c

mutual

def sql : Condition → Sql
  | .atom ps => ps
  | .negation c => .text "NOT " :: Sql.parenthesized (sql c)
  | .logical k cs =>
    if cs.isEmpty then [.text k.neutral] else Sql.join k.sql (operandsSql cs)

def operandsSql : List Condition → List Sql
  | [] => []
  | c :: cs => Sql.parenthesized (sql c) :: operandsSql cs

end

def negateIf (negated : Bool) (c : Condition) : Condition := if negated then .negation c else c

end Condition

namespace Comparison

/-- A value as a parameter; beside text taken from a document it is bound as text. -/
def parameter (inside : Bool) (cast : Option String) (v : Document) : Piece :=
  match v with
  | .str _ | .null => .value v cast
  | v => .value (if inside then .str v.compact else v) cast

/-- What is compared: the column, or the text that a document has under the keys of the path. -/
def subject (c : Comparison) (column : ColumnRef) : Sql :=
  if c.path.documentPath.isEmpty then [column.piece]
  else
    [.text "(", column.piece, .text " #>> ARRAY["] ++
      Sql.join ", " (c.path.documentPath.map fun key => [.value (.str key) none]) ++
      [.text "]::text[])"]

/-- The condition of a list without values; the keys of the path are parameters all the same. -/
def emptyList (c : Comparison) (truth : String) : Sql :=
  c.path.documentPath.map (fun key => Piece.silent (.str key)) ++ [.text truth]

/-- The condition on a column, without regard to `negated`. -/
def sql (c : Comparison) (column : ColumnRef) : Except PlanError Sql :=
  let inside := !c.path.documentPath.isEmpty
  let cast := if inside || c.operator.isPattern then none else c.type.bind (·.placeholderCast?)
  let parameter := parameter inside cast
  let compared (right : Sql) : Sql :=
    c.subject column ++ .text (" " ++ c.operator.sql ++ " ") :: right
  match c.operand with
  | .cast literal type =>
    .ok (compared [.text "CAST(", .value (.str literal) none, .text (" AS " ++ type ++ ")")])
  | .plain v =>
    match c.operator, v with
    | .is, .null | .not, .null => .ok (compared [.text "NULL"])
    | .is, .bool b | .not, .bool b => .ok (compared [.text (if b then "TRUE" else "FALSE")])
    | .isIn, .arr [] => .ok (c.emptyList "FALSE")
    | .notIn, .arr [] => .ok (c.emptyList "TRUE")
    | op, .arr items =>
      if op.isRange then
        match items with
        | [low, high] => .ok (compared [parameter low, .text " AND ", parameter high])
        | _ => malformed (.pairExpected op.name c.path.text)
      else if op.takesList then
        .ok (compared (Sql.parenthesized (Sql.join ", " (items.map fun v => [parameter v]))))
      else malformed (.incomparable op.name c.path.text v)
    | op, .obj _ => malformed (.incomparable op.name c.path.text v)
    | op, .str s =>
      if op.isPattern then .ok (compared [.value (.str (op.pattern s)) none])
      else .ok (compared [parameter v])
    | _, _ => .ok (compared [parameter v])

/-- The column compared, where the statement calls `m` by the name `table`. -/
def column (s : Schema) (m : Model) (table : String) (c : Comparison) :
    Except PlanError ColumnRef := do
  let target ← s.modelAt m c.path.hops
  return ⟨joinName table c.path.hops, target.columnOf c.path.attr⟩

end Comparison

namespace Filter

mutual

/-- The condition of a filter on `m`, which the statement calls `table`. -/
def condition (s : Schema) (m : Model) (table : String) : Filter → Except PlanError Condition
  | .comparison c => do
    return .negateIf c.negated (.atom (← c.sql (← c.column s m table)))
  | .computed c => do
    let target ← s.modelAt m c.path.hops
    return .atom [.text (Computed.condition target (joinName table c.path.hops) c.expression
      c.operator c.literal c.negated)]
  | .raw sql => .ok (.atom [.text sql])
  | .logical k fs => do return .logical k (← conditions s m table fs)
  | .not f => do return .negation (← condition s m table f)

def conditions (s : Schema) (m : Model) (table : String) :
    List Filter → Except PlanError (List Condition)
  | [] => .ok []
  | f :: fs => do
    let c ← condition s m table f
    return c :: (← conditions s m table fs)

end

end Filter

end RelQuery

import RelQuery.Document.Basic
import RelQuery.Filter.Operator
import RelQuery.Schema.ScalarType

/-!
# Filters

Boolean combinations of comparisons with stored attributes, comparisons with computed ones, and raw
SQL conditions. `Filter.combine` keeps them flat: a combination has no operand of its own
connective, no operand twice, and never just one.
-/

namespace RelQuery

/-- Where a comparison points: through associations to an attribute, and on into its document. -/
structure AttributePath where
  hops : List String
  attr : String
  documentPath : List String
  deriving DecidableEq

/-- `name`, or `$hop.hop.name$` across associations, then `.key` for each key in the document. -/
def AttributePath.text (p : AttributePath) : String :=
  (if p.hops.isEmpty then p.attr else "$" ++ ".".intercalate (p.hops ++ [p.attr]) ++ "$") ++
    String.join (p.documentPath.map ("." ++ ·))

/-- What an attribute is compared with. -/
inductive Operand
  | plain (value : Document)
  /-- A literal that the database casts to a type. -/
  | cast (literal sqlType : String)

namespace Operand

def same : Operand → Operand → Bool
  | .plain a, .plain b => a == b
  | .cast l t, .cast l' t' => l == l' && t == t'
  | _, _ => false

instance : BEq Operand := ⟨same⟩

end Operand

/-- A comparison with a stored attribute. -/
structure Comparison where
  path : AttributePath
  operator : Operator
  operand : Operand
  /-- The type of the attribute; none inside a document. -/
  type : Option ScalarType
  /-- Reached through `!!`: the condition is negated and its joins are inner. -/
  negated : Bool

instance : BEq Comparison where
  beq a b := a.path == b.path && a.operator == b.operator && a.operand == b.operand &&
    a.type == b.type && a.negated == b.negated

/-- A comparison of a computed attribute with a literal. -/
structure ComputedComparison where
  path : AttributePath
  expression : String
  operator : Operator
  literal : String
  negated : Bool
  deriving DecidableEq

inductive Connective
  | and
  | or
  deriving DecidableEq

inductive Filter
  | comparison (c : Comparison)
  | computed (c : ComputedComparison)
  | raw (sql : String)
  | logical (connective : Connective) (operands : List Filter)
  | not (operand : Filter)
  deriving Inhabited

namespace Filter

/-- Induction on filters, with the hypothesis for every operand of a connective. -/
@[induction_eliminator]
theorem induction {P : Filter → Prop} (comparison : ∀ c, P (.comparison c))
    (computed : ∀ c, P (.computed c)) (raw : ∀ sql, P (.raw sql))
    (logical : ∀ k fs, (∀ f ∈ fs, P f) → P (.logical k fs)) (not : ∀ f, P f → P (.not f))
    (f : Filter) : P f :=
  Filter.rec comparison computed raw logical not (fun _ h => nomatch h)
    (fun _ _ h ih _ hf => (List.mem_cons.mp hf).elim (· ▸ h) (ih _)) f

mutual

def same : Filter → Filter → Bool
  | .comparison a, .comparison b => a == b
  | .computed a, .computed b => a == b
  | .raw a, .raw b => a == b
  | .logical k as, .logical l bs => k == l && sameAll as bs
  | .not a, .not b => same a b
  | _, _ => false

def sameAll : List Filter → List Filter → Bool
  | [], [] => true
  | a :: as, b :: bs => same a b && sameAll as bs
  | _, _ => false

end

instance : BEq Filter := ⟨same⟩

/-- The filters without later copies of earlier ones. -/
def distinct (fs : List Filter) : List Filter :=
  fs.foldl (fun acc f => if acc.contains f then acc else acc ++ [f]) []

/-- The operands that a filter contributes to a combination: its own if it has that connective. -/
def parts (k : Connective) : Filter → List Filter
  | .logical l fs => if l = k then fs else [.logical l fs]
  | f => [f]

def combine (k : Connective) (fs : List Filter) : Filter :=
  match distinct (fs.flatMap (parts k)) with
  | [f] => f
  | gs => .logical k gs

/-- The conjunction; of no filters it is true. -/
def all (fs : List Filter) : Filter := combine .and fs

/-- The disjunction; of no filters it is false. -/
def any (fs : List Filter) : Filter := combine .or fs

/-- The filter that is always true. -/
def always : Filter := .logical .and []

def isAlways : Filter → Bool
  | .logical .and [] => true
  | _ => false

/-- The filter, unless it is always true. -/
def proper? (f : Filter) : Option Filter := if f.isAlways then none else some f

/-- The conditions whose conjunction the filter is. -/
def conjuncts (f : Filter) : List Filter := parts .and f

mutual

/-- The path of every comparison, in order. -/
def paths : Filter → List AttributePath
  | .comparison c => [c.path]
  | .computed c => [c.path]
  | .raw _ => []
  | .logical _ fs => pathsAll fs
  | .not f => paths f

def pathsAll : List Filter → List AttributePath
  | [] => []
  | f :: fs => paths f ++ pathsAll fs

end

mutual

/-- The hops of every negated comparison that has some, in order. -/
def negatedHops : Filter → List (List String)
  | .comparison c => if c.negated && !c.path.hops.isEmpty then [c.path.hops] else []
  | .computed c => if c.negated && !c.path.hops.isEmpty then [c.path.hops] else []
  | .raw _ => []
  | .logical _ fs => negatedHopsAll fs
  | .not f => negatedHops f

def negatedHopsAll : List Filter → List (List String)
  | [] => []
  | f :: fs => negatedHops f ++ negatedHopsAll fs

end

end Filter

end RelQuery

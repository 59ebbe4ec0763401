import RelQuery.Expression
import RelQuery.Filter.Operand
import RelQuery.Path

/-!
# Compiling filters

A filter is written as a document: an object is the conjunction of its entries, an array of model
filters the conjunction of its items. A key is, in this order, an operator, `_Exp`, an attribute, an
association or a path.
-/

namespace RelQuery

namespace Filter

/-- The name in an operator key `_<name>Op`; the name is made of letters. -/
def operatorName? (key : String) : Option String :=
  match key.toList with
  | '_' :: cs =>
    let name := cs.take (cs.length - 2)
    if cs.drop (cs.length - 2) = ['O', 'p'] ∧ name ≠ [] ∧ name.all Char.isAlpha then
      some (.ofList name)
    else none
  | _ => none

def expressionKey : String := "_Exp"

/-- Where a filter stands: at a model, or at an attribute of it. -/
structure Scope where
  model : Model
  /-- Associations on the way to the model. -/
  hops : List String
  attr : Option Attribute
  documentPath : List String
  negated : Bool

namespace Scope

def root (m : Model) : Scope := ⟨m, [], none, [], false⟩

def atAttribute (scope : Scope) (a : Attribute) : Scope :=
  { scope with attr := some a, documentPath := [] }

/-- Whether keys lead into the document of a stored attribute. -/
def inDocument (scope : Scope) : Bool :=
  scope.attr.any fun a => !a.isComputed && a.type.isStructured

end Scope

/-- What a key asks for. -/
inductive Role
  | connective (k : Connective)
  | negation
  | operator (op : Operator)
  | expression
  /-- A filter on what the key leads to. -/
  | within (scope : Scope)

/-- The role of an operator key. -/
def operatorRole (name : String) : Except PlanError Role :=
  if name = "and" then .ok (.connective .and)
  else if name = "or" then .ok (.connective .or)
  else if name = "not" then .ok .negation
  else
    match Operator.ofName? name with
    | some op => .ok (.operator op)
    | none => .error (.unknownOperator name)

def isBracket : Document → Bool
  | .arr _ | .obj _ => true
  | _ => false

/-- The role of a key that leads on from a model. -/
def fieldRole (s : Schema) (scope : Scope) (key : String) (value : Document) :
    Except PlanError Role :=
  match scope.model.attribute? key with
  | some a => .ok (.within (scope.atAttribute a))
  | none =>
    match scope.model.associationForField? key with
    | some assoc =>
      if isBracket value then do
        let target ← s.targetOf assoc
        return .within ⟨target, scope.hops ++ [assoc.name], none, [], scope.negated⟩
      else malformed (.associationValue key)
    | none =>
      match Path.Key.parse? key with
      | some path => do
        let r ← Path.walk s scope.model path.tokens
        return .within ⟨r.target, scope.hops ++ r.aliases, some r.attr, r.documentPath,
          scope.negated || path.negated⟩
      | none => .error (scope.model.unknownField key)

def role (s : Schema) (scope : Scope) (key : String) (value : Document) : Except PlanError Role :=
  match operatorName? key with
  | some name => operatorRole name
  | none =>
    if key = expressionKey then .ok .expression
    else if scope.inDocument then
      .ok (.within { scope with documentPath := scope.documentPath ++ [key] })
    else if scope.attr.isSome then malformed (.keyInAttribute key)
    else fieldRole s scope key value

/-- The comparison of the attribute in scope with a value. -/
def leaf (s : Schema) (scope : Scope) (op : Operator) (value : Document) :
    Except PlanError Filter :=
  match scope.attr with
  | none => malformed (.looseOperator op.name scope.model.name)
  | some a => do
    let op := Operand.testForNull op value
    Operand.checkShape op value a.name
    match a.computed with
    | some c =>
      return .computed {
        path := ⟨scope.hops, a.name, []⟩
        expression := c.expression
        operator := op
        literal := ← Operand.literal a.type op value a.name
        negated := scope.negated }
    | none =>
      let inside := !scope.documentPath.isEmpty
      let operand ←
        if inside || op.isPattern then .ok (.plain value)
        else Operand.ofValue a.type s.options.dialect value a.name
      return .comparison {
        path := ⟨scope.hops, a.name, scope.documentPath⟩
        operator := op
        operand
        type := if inside then none else some a.type
        negated := scope.negated }

mutual

def compileValue (s : Schema) (scope : Scope) : Document → Except PlanError Filter
  | .obj fields => all <$> compileFields s scope fields
  | .arr items =>
    if scope.attr.isNone then all <$> compileItems s scope items
    else leaf s scope .isIn (.arr items)
  | .null => leaf s scope .is .null
  | value =>
    if scope.attr.isNone then malformed (.looseValue value scope.model.name)
    else leaf s scope .eq value

def compileItems (s : Schema) (scope : Scope) : List Document → Except PlanError (List Filter)
  | [] => .ok []
  | value :: values => do
    let f ← compileValue s scope value
    return f :: (← compileItems s scope values)

def compileFields (s : Schema) (scope : Scope) :
    List (String × Document) → Except PlanError (List Filter)
  | [] => .ok []
  | (key, value) :: fields => do
    let f ← match ← role s scope key value with
      | .within inner => compileValue s inner value
      | .expression => .raw <$> Expression.lower s.options.dialect value
      | .operator op => leaf s scope op value
      | .connective k =>
        match value with
        | .arr items => combine k <$> compileItems s scope items
        | .obj entries => combine k <$> compileFields s scope entries
        | value =>
          malformed (.connectiveValue (match k with | .and => "and" | .or => "or") value)
      | .negation =>
        match value with
        | .obj entries => (.not ∘ all) <$> compileFields s scope entries
        | .arr items =>
          if scope.attr.isNone then (.not ∘ all) <$> compileItems s scope items
          else leaf s scope .not (.arr items)
        | value => leaf s scope .not value
    return f :: (← compileFields s scope fields)

end

/-- The filter that a document says about a model: an object, or an array read as a conjunction. -/
def compile (s : Schema) (model : String) (value : Document) : Except PlanError Filter := do
  let m ← s.model model
  if isBracket value then compileValue s (.root m) value
  else malformed (.filterShape value)

end Filter

end RelQuery

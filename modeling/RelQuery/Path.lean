import RelQuery.Schema.Naming

/-!
# Field paths

Keys such as `customer__country` that lead through associations to an attribute. `!!` in place of
`__` negates what is said of the attribute. Past an attribute that holds documents, the rest of a
path leads into the document.
-/

namespace RelQuery

namespace Path

/-- Splits a text at every doubled `sep`, leftmost first. -/
def splitDoubled (sep : Char) : List Char → List (List Char)
  | [] => [[]]
  | [c] => [[c]]
  | c :: d :: cs =>
    if c = sep ∧ d = sep then [] :: splitDoubled sep cs
    else
      match splitDoubled sep (d :: cs) with
      | part :: parts => (c :: part) :: parts
      | [] => [[c]]

/-- A path key taken apart. -/
structure Key where
  tokens : List String
  /-- The key holds `!!`. -/
  negated : Bool
  deriving DecidableEq

/-- Takes a path key apart; none for a key without separators or with an empty segment. -/
def Key.parse? (key : String) : Option Key :=
  let parts := splitDoubled '!' key.toList
  let tokens := parts.flatMap (splitDoubled '_')
  if tokens.length ≤ 1 ∨ tokens.any (·.isEmpty) then none
  else some ⟨tokens.map String.ofList, 1 < parts.length⟩

/-- Where a path leads. -/
structure Resolved where
  hops : List Association
  /-- The model that the hops lead to. -/
  target : Model
  attr : Attribute
  /-- Keys inside the document of the attribute. -/
  documentPath : List String

def Resolved.aliases (r : Resolved) : List String := r.hops.map (·.name)

/-- Follows a path from `m`. All tokens but the last name associations by their fields, the last
one an attribute; an attribute with documents takes all tokens after it. -/
def walk (s : Schema) (m : Model) : List String → Except PlanError Resolved
  | [] => malformed .emptyPath
  | [token] => do return ⟨[], m, ← m.requireAttribute token, []⟩
  | token :: next :: rest =>
    match m.attribute? token with
    | some a =>
      if a.type.isStructured then .ok ⟨[], m, a, next :: rest⟩
      else .error (.unreachable m.name token)
    | none =>
      match m.associationForField? token with
      | none => .error (m.unknownField token)
      | some hop => do
        let target ← s.targetOf hop
        let r ← walk s target (next :: rest)
        return { r with hops := hop :: r.hops }

/-- Follows a path from the model of this name. -/
def resolve (s : Schema) (model : String) (tokens : List String) : Except PlanError Resolved := do
  walk s (← s.model model) tokens

end Path

end RelQuery

import RelQuery.Include.Merge
import RelQuery.Plan.Basic

/-!
# Merging plans

Two plans on one model become one. Modifiers that both give must agree.
-/

namespace RelQuery.Plan

/-- A list that is given, that is, not empty. -/
def given? {α : Type} (as : List α) : Option (List α) := if as.isEmpty then none else some as

/-- The inner joins that the negated comparisons of a filter ask for. -/
def requireNegated (f : Option Filter) (nodes : List Include) : List Include :=
  match f with
  | some f => f.negatedHops.foldl (fun ns hops => Include.requireHops hops ns) nodes
  | none => nodes

def merge (a b : Plan) : Except PlanError Plan :=
  if a.model ≠ b.model then .error (.conflict .model)
  else do
    let filter := Filter.merge? a.filter b.filter
    let includes ← Include.mergeAll a.includes b.includes
    return {
      model := a.model
      attributes := b.attributes.foldl addItem a.attributes
      includes := requireNegated filter includes
      filter
      group := (← agree .group (given? a.group) (given? b.group)).getD []
      order := (← agree .order (given? a.order) (given? b.order)).getD []
      limit := ← agree .limit a.limit b.limit
      offset := ← agree .offset a.offset b.offset }

end RelQuery.Plan

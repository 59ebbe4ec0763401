import RelQuery.Filter.Merge
import RelQuery.Include.Basic

/-!
# Merging includes

Two nodes for the same association become one that selects what either selects.
-/

namespace RelQuery

/-- The modifier that two sides agree on; one side may be silent. -/
def agree {α : Type} [DecidableEq α] (modifier : Modifier) :
    Option α → Option α → Except PlanError (Option α)
  | some a, some b => if a = b then .ok (some a) else .error (.conflict modifier)
  | none, b => .ok b
  | a, none => .ok a

namespace Include

mutual

/-- The node for both; it is an inner join only if both are. -/
def merge (a : Include) : Include → Except PlanError Include
  | ⟨_, _, _, attributes, filter, includes, required, limit, offset, separate⟩ => do
    let includes ← mergeAll a.includes includes
    let limit ← agree .limit a.limit limit
    let offset ← agree .offset a.offset offset
    return { a with
      attributes := attributes.foldl addName a.attributes
      filter := Filter.merge? a.filter filter
      includes, limit, offset
      required := a.required && required
      separate := a.separate || separate }

/-- The nodes with each of a second list merged into the one for its association. -/
def mergeAll (nodes : List Include) : List Include → Except PlanError (List Include)
  | [] => .ok nodes
  | b :: bs => do
    mergeAll (← upsert (·.sameJoin b) (fun a => merge a b) (.ok b) nodes) bs

end

/-- Merges a node into the one for its association, or adds it. -/
def insert (nodes : List Include) (b : Include) : Except PlanError (List Include) :=
  mergeAll nodes [b]

end Include

end RelQuery

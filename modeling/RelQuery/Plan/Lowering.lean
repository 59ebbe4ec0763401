import RelQuery.Computed
import RelQuery.Include.Basic

/-!
# Lowering computed comparisons

In a plan every comparison with a computed attribute is a raw condition, its columns behind the
name that the model has where the filter is written.
-/

namespace RelQuery

namespace Filter

mutual

/-- Lowers a filter on `m`, which the statement calls `table`. -/
def lower (s : Schema) (m : Model) (table : String) : Filter → Except PlanError Filter
  | .computed c => do
    let target ← s.modelAt m c.path.hops
    return .raw (Computed.condition target (joinName table c.path.hops) c.expression c.operator
      c.literal c.negated)
  | .logical k fs => do return combine k (← lowerAll s m table fs)
  | .not f => do return .not (← lower s m table f)
  | .comparison c => .ok (.comparison c)
  | .raw sql => .ok (.raw sql)

def lowerAll (s : Schema) (m : Model) (table : String) :
    List Filter → Except PlanError (List Filter)
  | [] => .ok []
  | f :: fs => do
    let f ← lower s m table f
    return f :: (← lowerAll s m table fs)

end

end Filter

namespace Include

mutual

/-- Lowers the filters of a node below `parent`, which the statement calls `table`, and of all nodes
below it. A node that is loaded separately has a statement of its own, in which its model goes by
its name. -/
def lower (s : Schema) (parent : Model) (table : String) : Include → Except PlanError Include
  | ⟨target, name, kind, attributes, filter, includes, required, limit, offset, separate⟩ => do
    let (_, m) ← s.follow parent name
    let own := if separate then m.name else joinName table [name]
    let filter ← match filter with
      | some f => some <$> Filter.lower s m own f
      | none => .ok none
    let includes ← lowerAll s m own includes
    return ⟨target, name, kind, attributes, filter, includes, required, limit, offset, separate⟩

def lowerAll (s : Schema) (parent : Model) (table : String) :
    List Include → Except PlanError (List Include)
  | [] => .ok []
  | n :: ns => do
    let n ← lower s parent table n
    return n :: (← lowerAll s parent table ns)

end

end Include

end RelQuery

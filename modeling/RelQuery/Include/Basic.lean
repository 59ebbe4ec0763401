import RelQuery.Filter.Basic
import RelQuery.Schema.Basic

/-!
# Includes

The tree of associations that a query joins or loads. A path of a filter or an order adds the nodes
it needs; such nodes select nothing.
-/

namespace RelQuery

/-- An association joined to its parent, or loaded by a query of its own. -/
structure Include where
  target : String
  /-- The name of the association. -/
  name : String
  kind : AssociationKind
  attributes : List String := []
  filter : Option Filter := none
  includes : List Include := []
  /-- An inner join, not an outer one. -/
  required : Bool := false
  limit : Option Nat := none
  offset : Option Nat := none
  /-- Loaded by a query of its own. -/
  separate : Bool := false
  deriving Inhabited

/-- The names with one more at the end, unless it is among them. -/
def addName (names : List String) (name : String) : List String :=
  if names.contains name then names else names ++ [name]

namespace Include

/-- Induction on nodes, with the hypothesis for every node right below. -/
@[induction_eliminator]
theorem induction {P : Include → Prop} (node : ∀ n : Include, (∀ c ∈ n.includes, P c) → P n)
    (n : Include) : P n :=
  @Include.rec P (fun ns => ∀ c ∈ ns, P c) (fun _ _ _ _ _ _ _ _ _ _ h => node _ h)
    (fun _ h => nomatch h) (fun _ _ h ih _ hc => (List.mem_cons.mp hc).elim (· ▸ h) (ih _)) n

def sameJoin (a b : Include) : Bool := a.target == b.target && a.name == b.name

/-- Changes the first node that has the property; without one, adds `fresh` as the last. -/
def upsert (p : Include → Bool) (change : Include → Except PlanError Include)
    (fresh : Except PlanError Include) : List Include → Except PlanError (List Include)
  | [] => do return [← fresh]
  | n :: ns =>
    if p n then do return (← change n) :: ns
    else do return n :: (← upsert p change fresh ns)

/-- The nodes with a joined one for each of `hops`, from `m` on. With `required` each becomes an
inner join. -/
def ensurePath (s : Schema) (required : Bool) :
    List String → Model → List Include → Except PlanError (List Include)
  | [], _, nodes => .ok nodes
  | hop :: hops, m, nodes => do
    let (assoc, target) ← s.follow m hop
    let extend (n : Include) : Except PlanError Include :=
      if n.separate then malformed (.throughSeparate assoc.name)
      else do
        let includes ← ensurePath s required hops target n.includes
        return { n with required := n.required || required, includes }
    let fresh : Include := { target := target.name, name := assoc.name, kind := assoc.kind }
    upsert fresh.sameJoin extend (extend fresh) nodes

/-- The nodes with all that the comparisons of a filter need; a negated one needs inner joins. -/
def attachFilter (s : Schema) (m : Model) (f : Filter) (nodes : List Include) :
    Except PlanError (List Include) := do
  let nodes ← f.paths.foldlM (fun ns p => ensurePath s false p.hops m ns) nodes
  f.negatedHops.foldlM (fun ns hops => ensurePath s true hops m ns) nodes

/-- Changes the first node that has the property, if there is one. -/
def modifyFirst (p : Include → Bool) (change : Include → Include) : List Include → List Include
  | [] => []
  | n :: ns => if p n then change n :: ns else n :: modifyFirst p change ns

/-- Makes the nodes along `hops`, as far as there are any, inner joins. -/
def requireHops : List String → List Include → List Include
  | [], nodes => nodes
  | hop :: hops, nodes =>
    modifyFirst (·.name == hop)
      (fun n => { n with required := true, includes := requireHops hops n.includes }) nodes

end Include

end RelQuery

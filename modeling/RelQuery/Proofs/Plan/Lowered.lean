import RelQuery.Proofs.Filter.Lowered
import RelQuery.Proofs.Include.Positions
import RelQuery.Proofs.Plan.Scope

/-!
# Lowering and rendering

Composing a plan lowers its filter and those of its nodes by the names that models will have; the
statements of the plan compute these names again where they write the filters. Both agree: what a
comparison with a computed attribute was lowered to is what it is written as in the statement around
its filter, whether a node is joined, separate, or joined below a separate one.
-/

namespace RelQuery

open Include

namespace Plan

variable {s : Schema} {selection : PartialPlan} {filter : Option Filter} {args : Arguments}
  {p : Plan} {is : List Nat} {place : Place} {n : Include}

namespace Composition

variable (c : Composition s selection filter args p)
include c

/-- The nodes that a composition starts from are where they were when the nodes are lowered. -/
theorem retains :
    Retains (startNodes selection args) (pageNodes filter args c.order c.ordered) := by
  have hordered : Retains (startNodes selection args) c.ordered :=
    c.preserves (fun required hops ns ns' hns h => hns.trans (.ensurePath h)) (.refl _)
  unfold pageNodes
  split
  · exact hordered.trans (.splitPageAll _ _ _)
  · exact hordered

theorem lowered_includes :
    lowerAll s c.m c.m.name (pageNodes filter args c.order c.ordered) = .ok p.includes :=
  (congrArg Plan.includes c.plan_eq) ▸ c.includes_eq

/-- A node of the plan has the lowered filter of the node at its position in the selection. -/
theorem rel_filter (h : PlaceAt s c.m p.includes c.m c.m.name p.includes is place) :
    Option.Rel (Filter.LoweredTo s place.model place.name)
      ((at? is (startNodes selection args)).bind (·.filter)) place.node.filter := by
  obtain ⟨n, hn, -, hfilter⟩ := h.exists_at c.lowered_includes
  have hretained := c.retains is
  rw [hn] at hretained
  rw [← hretained.filter]
  exact rel_imp hfilter fun _ _ => Filter.loweredTo_of_lower

/-- Every node of the selection is in the plan. -/
theorem exists_place (hn : at? is (startNodes selection args) = some n) : ∃ place,
    PlaceAt s c.m p.includes c.m c.m.name p.includes is place ∧ place.node.name = n.name := by
  have hretained := c.retains is
  rw [hn] at hretained
  obtain ⟨n', hn', hname⟩ := hretained.exists_name
  obtain ⟨place, hplace, hlowered⟩ := exists_placeAt c.lowered_includes hn'
  exact ⟨place, hplace, hlowered.name.trans hname⟩

end Composition

/-- In a composed plan every comparison with a computed attribute, in the filter and in those of the
nodes at any depth, is the text that it would be written as, under the name at which the statement
writes the filter, and the lowered filters have the values of those they come from. -/
theorem lowered_of_compose (h : compose s selection filter args = .ok p) :
    ∃ m, s.model selection.model = .ok m ∧ s.model p.model = .ok m ∧
      (∃ lowered, Option.Rel (Filter.LoweredTo s m m.name) filter lowered ∧
        p.filter = lowered.bind (·.proper?)) ∧
      (∀ q, p.select s = .ok q → q.name = m.name ∧
        Filter.condition? s m q.name p.filter = .ok q.condition ∧
        joinsAll s m q.name p.includes = .ok q.joins) ∧
      (∀ is n, at? is (startNodes selection args) = some n → ∃ place,
        PlaceAt s m p.includes m m.name p.includes is place ∧ place.node.name = n.name) ∧
      ∀ is place, PlaceAt s m p.includes m m.name p.includes is place →
        Option.Rel (Filter.LoweredTo s place.model place.name)
          ((at? is (startNodes selection args)).bind (·.filter)) place.node.filter ∧
        place.Written s := by
  obtain ⟨c⟩ := composition h
  refine ⟨c.m, c.model_eq, c.plan_model, ⟨c.lowered, ?_, congrArg Plan.filter c.plan_eq⟩,
    fun q hq => ?_, fun is n => c.exists_place, fun is place hplace =>
      ⟨c.rel_filter hplace, hplace.written⟩⟩
  · exact rel_imp c.rel_lowered fun _ _ => Filter.loweredTo_of_lower
  · obtain ⟨m, hm, hname, hjoins, hcondition, -⟩ := select_eq_ok hq
    cases hm.symm.trans c.plan_model
    exact ⟨hname, hname ▸ hcondition, hname ▸ hjoins⟩

/-! ### A page of nodes with children, by a computed attribute at each level -/

/-- An attribute whose value is twice the key. -/
def twice (name : String) : Attribute :=
  ⟨name, name, .integer, true, false, some ⟨"id + id", []⟩⟩

def doubled : Schema where
  models := forest.models.map fun m =>
    { m with attributes := m.attributes ++ [twice "twice", twice "double"] }
  options := {}

def exceedsTen (name : String) : Filter :=
  .computed ⟨⟨[], name, []⟩, "id + id", .gt, "10", false⟩

/-- Comparisons that differ, but have one text. -/
def eitherExceedsTen : Filter := .logical .or [exceedsTen "twice", exceedsTen "double"]

def childrenAboveTen (includes : List Include) : Include :=
  { childrenNode false with filter := some eitherExceedsTen, includes }

/-- On a page the children are loaded separately, and theirs are joined to them. -/
def doubledSelection : PartialPlan :=
  ⟨"Node", ["id"], ["id"], [childrenAboveTen [childrenAboveTen []]]⟩

theorem doubledSelection_lowered : ∃ p m children grandchildren,
    compose doubled doubledSelection (some eitherExceedsTen) { limit := some 10 } = .ok p ∧
    doubled.model p.model = .ok m ∧ (∃ g, eitherExceedsTen.LoweredTo doubled m m.name g ∧
      p.filter = g.proper?) ∧
    PlaceAt doubled m p.includes m m.name p.includes [0] children ∧ children.name = "Node" ∧
    (∃ g, eitherExceedsTen.LoweredTo doubled children.model children.name g ∧
      children.node.filter = some g) ∧
    PlaceAt doubled m p.includes m m.name p.includes [0, 0] grandchildren ∧
    grandchildren.name = "Node->children" ∧
    ∃ g, eitherExceedsTen.LoweredTo doubled grandchildren.model grandchildren.name g ∧
      grandchildren.node.filter = some g := by
  obtain ⟨p, hp⟩ : ∃ p, compose doubled doubledSelection (some eitherExceedsTen)
      { limit := some 10 } = .ok p := ⟨_, rfl⟩
  obtain ⟨m, hm, hpm, ⟨lowered, hlowered, hfilter⟩, -, -, hplaces⟩ := lowered_of_compose hp
  obtain ⟨n, c, hn, hns, hnname, hc, hcs, hcname⟩ : ∃ n c, p.includes[0]? = some n ∧
      n.separate = true ∧ n.name = "children" ∧ n.includes[0]? = some c ∧ c.separate = false ∧
      c.name = "children" := by
    cases hp
    exact ⟨_, _, rfl, rfl, rfl, rfl, rfl, rfl⟩
  obtain ⟨hname, assoc, hf⟩ : m.name = "Node" ∧
      ∃ assoc, doubled.follow m "children" = .ok (assoc, m) := by
    cases hm
    exact ⟨rfl, _, rfl⟩
  have hchildren : PlaceAt doubled m p.includes m m.name p.includes [0]
      ⟨m, p.includes, m, n, m, n.ownName m m.name⟩ := .here hn (hnname ▸ hf)
  have hgrandchildren : PlaceAt doubled m p.includes m m.name p.includes [0, 0]
      ⟨m, n.includes, m, c, m, c.ownName m m.name⟩ :=
    .separate hn (hnname ▸ hf) hns (.here hc (hcname ▸ hf))
  obtain ⟨g, rfl, hg⟩ := exists_right_of_rel hlowered rfl
  obtain ⟨g₁, hg₁, hlowered₁⟩ := exists_right_of_rel (hplaces _ _ hchildren).1 rfl
  obtain ⟨g₂, hg₂, hlowered₂⟩ := exists_right_of_rel (hplaces _ _ hgrandchildren).1 rfl
  refine ⟨p, m, _, _, hp, hpm, ⟨g, hg, hfilter⟩, hchildren, ?_, ⟨g₁, hlowered₁, hg₁⟩,
    hgrandchildren, ?_, g₂, hlowered₂, hg₂⟩
  · exact (ownName_of_separate hns).trans hname
  · rw [ownName_of_joined hcs, hcname, hname]
    rfl

end Plan

end RelQuery

import RelQuery.Proofs.Include.Steps

/-!
# The steps of a composition

What a plan was composed of: the nodes before and after each pass, and the entries of its order.
-/

namespace RelQuery.Plan

/-- The nodes that a composition starts from. A grouped query joins none of its selection. -/
def startNodes (selection : PartialPlan) (args : Arguments) : List Include :=
  if !args.group.isEmpty then [] else selection.includes

/-- The nodes of a page: to-many associations are loaded separately. -/
def pageNodes (filter : Option Filter) (args : Arguments) (order : List OrderEntry)
    (nodes : List Include) : List Include :=
  if !(!args.group.isEmpty) && (args.limit.isSome || args.offset.isSome) then
    splitPageAll (pinnedPaths filter order) [] nodes
  else nodes

/-- The order of a plan. A grouped query without an order is ordered by its keys. -/
def orderOf (m : Model) (args : Arguments) (order : List OrderEntry) : List OrderEntry :=
  if !args.group.isEmpty && order.isEmpty then
    args.group.map fun key => ⟨localColumn m (m.columnOf key), .asc⟩
  else order

/-- The steps by which a plan was composed. -/
structure Composition (s : Schema) (selection : PartialPlan) (filter : Option Filter)
    (args : Arguments) (p : Plan) where
  m : Model
  /-- The nodes with those that the filter needs. -/
  filtered : List Include
  /-- The entries of the order that was asked for. -/
  order : List OrderEntry
  /-- The nodes with those that the filter and the order need. -/
  ordered : List Include
  attributes : List SelectItem
  lowered : Option Filter
  includes : List Include
  model_eq : s.model selection.model = .ok m
  filtered_eq : (match filter with
    | some f => Include.attachFilter s m f (startNodes selection args)
    | none => .ok (startNodes selection args)) = .ok filtered
  ordered_eq : attachOrders s m args.order filtered = .ok (order, ordered)
  attributes_eq : (if !args.group.isEmpty then groupedItems m selection.requested args
    else .ok (plainItems m selection.attributes)) = .ok attributes
  lowered_eq : (match filter with
    | some f => some <$> f.lower s m m.name
    | none => .ok none) = .ok lowered
  includes_eq : Include.lowerAll s m m.name (pageNodes filter args order ordered) = .ok includes
  plan_eq : p = {
    model := m.name
    attributes
    includes
    filter := lowered.bind (·.proper?)
    group := args.group
    order := orderOf m args order
    limit := args.limit
    offset := args.offset }

variable {s : Schema} {selection : PartialPlan} {filter : Option Filter} {args : Arguments}
  {p : Plan}

theorem compose_eq : compose s selection filter args =
    s.model selection.model >>= fun m =>
    (match filter with
      | some f => Include.attachFilter s m f (startNodes selection args)
      | none => .ok (startNodes selection args)) >>= fun filtered =>
    attachOrders s m args.order filtered >>= fun (order, ordered) =>
    (if !args.group.isEmpty then groupedItems m selection.requested args
      else .ok (plainItems m selection.attributes)) >>= fun attributes =>
    (match filter with
      | some f => some <$> f.lower s m m.name
      | none => .ok none) >>= fun lowered =>
    Include.lowerAll s m m.name (pageNodes filter args order ordered) >>= fun includes =>
    .ok {
      model := m.name
      attributes
      includes
      filter := lowered.bind (·.proper?)
      group := args.group
      order := orderOf m args order
      limit := args.limit
      offset := args.offset } := by
  unfold compose startNodes pageNodes orderOf
  cases args.group.isEmpty <;> cases filter <;> simp <;> rfl

theorem composition (h : compose s selection filter args = .ok p) :
    Nonempty (Composition s selection filter args p) := by
  rw [compose_eq] at h
  obtain ⟨m, hm, h⟩ := bind_eq_ok.mp h
  obtain ⟨filtered, hfiltered, h⟩ := bind_eq_ok.mp h
  obtain ⟨⟨order, ordered⟩, hordered, h⟩ := bind_eq_ok.mp h
  obtain ⟨attributes, hattributes, h⟩ := bind_eq_ok.mp h
  obtain ⟨lowered, hlowered, h⟩ := bind_eq_ok.mp h
  obtain ⟨includes, hincludes, h⟩ := bind_eq_ok.mp h
  exact ⟨⟨m, filtered, order, ordered, attributes, lowered, includes, hm, hfiltered, hordered,
    hattributes, hlowered, hincludes, (Except.ok.inj h).symm⟩⟩

/-! ## What added paths keep -/

section
variable {m : Model} {ns ns' : List Include} {P : List Include → Prop}
  (H : ∀ required hops ns ns', P ns → Include.ensurePath s required hops m ns = .ok ns' → P ns')
include H

/-- What every added path keeps, the paths of an order keep. -/
theorem attachOrders_preserves {orders : List (String × Direction)} {entries : List OrderEntry}
    (h : attachOrders s m orders ns = .ok (entries, ns')) (hns : P ns) : P ns' := by
  induction orders generalizing ns entries with
  | nil =>
    cases h
    exact hns
  | cons order orders ih =>
    obtain ⟨es, -, h⟩ := bind_eq_ok.mp h
    obtain ⟨ns₁, h₁, h⟩ := bind_eq_ok.mp h
    obtain ⟨⟨later, ns₂⟩, h₂, h⟩ := bind_eq_ok.mp h
    cases h
    refine ih h₂ (foldlM_preserves (fun ns e _ ns' hns h => ?_) hns h₁)
    unfold attachOrder at h
    split at h
    · exact H _ _ _ _ hns h
    · cases h
      exact hns

end

/-- The nodes with those that the filter and the order need keep what every added path keeps. -/
theorem Composition.preserves {P : List Include → Prop} (c : Composition s selection filter args p)
    (H : ∀ required hops ns ns', P ns → Include.ensurePath s required hops c.m ns = .ok ns' → P ns')
    (hstart : P (startNodes selection args)) : P c.ordered := by
  refine attachOrders_preserves H c.ordered_eq ?_
  have hfiltered := c.filtered_eq
  split at hfiltered
  · exact Include.attachFilter_preserves H hfiltered hstart
  · exact Except.ok.inj hfiltered ▸ hstart

end RelQuery.Plan

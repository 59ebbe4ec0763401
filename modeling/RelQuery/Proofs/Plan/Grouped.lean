import RelQuery.Proofs.Document.Distinct
import RelQuery.Proofs.Plan.Counted
import RelQuery.Proofs.Plan.SelectLists

/-!
# Grouped queries

A grouped query selects its keys, each once, and then one aggregate of each other stored attribute
that was requested. Of its selection it joins nothing: its nodes are the hops on the ways of its
filter and its order.
-/

namespace RelQuery

/-- The attribute with a name, if it has a column of its own. -/
def Model.stored? (m : Model) (name : String) : Option Attribute :=
  (m.attribute? name).filter (!·.isComputed)

namespace Plan

open Include (Forest InnerAt Extends bareAt?)
open RelQuery.Filter (GoesAlong)

variable {s : Schema} {Q : Model → Filter → Prop} {m : Model} {p : Plan} {selection : PartialPlan}
  {filter : Option Filter} {args : Arguments} {a : Attribute} {name : String}
  {items : List SelectItem} {requested path : List String} {ns ns' : List Include}
  {orders : List (String × Direction)} {order : List OrderEntry}

theorem stored?_eq_some :
    m.stored? name = some a ↔ m.attribute? name = some a ∧ a.computed = none := by
  rw [Model.stored?, Option.filter_eq_some_iff]
  simp [Attribute.isComputed]

/-! ## Select lists -/

/-- The aggregate of an attribute: by the function that is given for it, or that of its type.
Decimals are added up, and of days the last one is taken. -/
def aggregateOf (args : Arguments) (a : Attribute) : SelectItem :=
  .aggregate ((args.transform.lookup a.name).getD
    (if a.type = .decimal then .sum
      else if a.type = .date ∨ a.type = .dateOnly then .max else .avg)) a.name a.name

theorem ofType_eq (type : ScalarType) : Aggregate.ofType type =
    if type = .decimal then .sum else if type = .date ∨ type = .dateOnly then .max else .avg := by
  cases type <;> rfl

/-- The stored attributes that are requested and no group keys, each once. -/
def aggregated (m : Model) (requested : List String) (args : Arguments) : List Attribute :=
  (requested.eraseDups.filter (· ∉ args.group)).filterMap m.stored?

theorem foldl_addItem (items : List SelectItem) : items.foldl addItem [] = items.eraseDups := by
  induction items using List.reverseRecOn with
  | nil => rfl
  | append_singleton items item ih =>
    rw [List.foldl_append, ih, eraseDups_concat, List.foldl_cons, List.foldl_nil, addItem]
    simp only [List.mem_eraseDups]

theorem aggregate?_eq : aggregate? m args name =
    if name ∈ args.group then none else (m.stored? name).map (aggregateOf args) := by
  unfold aggregate?
  by_cases hkey : name ∈ args.group
  · rw [if_pos (List.contains_iff_mem.mpr hkey), if_pos hkey]
  · rw [if_neg (hkey ∘ List.contains_iff_mem.mp), if_neg hkey, Model.stored?]
    cases ha : m.attribute? name with
    | none => rfl
    | some a =>
      cases hc : a.isComputed <;> simp [hc, aggregateOf, ofType_eq, Model.name_of_attribute? ha]

theorem filterMap_aggregate? : requested.eraseDups.filterMap (aggregate? m args) =
    (aggregated m requested args).map (aggregateOf args) := by
  rw [aggregated, List.filterMap_filter, List.map_filterMap]
  refine List.filterMap_congr fun name _ => ?_
  rw [aggregate?_eq]
  by_cases hkey : name ∈ args.group <;> simp [hkey]

theorem mem_aggregated : a ∈ aggregated m requested args ↔
    a.name ∈ requested ∧ a.name ∉ args.group ∧ m.attribute? a.name = some a ∧
      a.computed = none := by
  simp only [aggregated, List.mem_filterMap, List.mem_filter, List.mem_eraseDups,
    decide_eq_true_eq, stored?_eq_some, and_assoc]
  constructor
  · rintro ⟨name, hname, hkey, ha, hc⟩
    cases Model.name_of_attribute? ha
    exact ⟨hname, hkey, ha, hc⟩
  · exact fun h => ⟨a.name, h⟩

theorem keys_of_groupKey {keys : List SelectItem} (h : args.group.mapM (groupKey m) = .ok keys) :
    keys = args.group.map .column := by
  rw [← List.map_id keys]
  exact map_of_mapM h fun key _ item hitem => (groupKey_eq_ok hitem).1

/-- The items of a grouped query are its keys and the aggregates. -/
theorem groupedItems_eq (h : groupedItems m requested args = .ok items) :
    items = args.group.eraseDups.map .column ++
      (aggregated m requested args).map (aggregateOf args) := by
  obtain ⟨keys, hkeys, h⟩ := bind_eq_ok.mp h
  obtain ⟨_, -, h⟩ := bind_eq_ok.mp h
  cases h
  have hgroup : (args.group.map SelectItem.column).eraseDups =
      args.group.eraseDups.map .column := by
    rw [← List.filterMap_eq_map]
    exact eraseDups_filterMap (by simp) _
  have haggregates : (requested.filterMap (aggregate? m args)).eraseDups =
      (aggregated m requested args).map (aggregateOf args) := by
    rw [← filterMap_aggregate?]
    refine eraseDups_filterMap (fun i j item hi hj => ?_) _
    obtain ⟨f, rfl, -⟩ := aggregate?_eq_some hi
    obtain ⟨g, hg, -⟩ := aggregate?_eq_some hj
    cases hg
    rfl
  -- No aggregate is a key, so dropping repetitions keeps both parts apart.
  have hapart : (requested.filterMap (aggregate? m args)).removeAll (args.group.map .column) =
      requested.filterMap (aggregate? m args) := by
    refine List.filter_eq_self.mpr fun item hitem => ?_
    obtain ⟨name, -, hitem⟩ := List.mem_filterMap.mp hitem
    obtain ⟨f, rfl, -⟩ := aggregate?_eq_some hitem
    simp
  rw [foldl_addItem, keys_of_groupKey hkeys, List.eraseDups_append, hapart, hgroup, haggregates]

/-- What is selected has the names of stored attributes. -/
theorem stored_output (h : groupedItems m requested args = .ok items) :
    ∀ item ∈ items, m.Stored item.output := by
  intro item hitem
  rcases mem_groupedItems h hitem with ⟨key, hkey, rfl⟩ | ⟨f, name, rfl, -, -, hstored⟩
  · exact stored_of_groupedItems h key hkey
  · exact hstored

/-- Keys and aggregates have the names of different attributes. -/
theorem nodup_outputs (h : groupedItems m requested args = .ok items) :
    (items.map (·.output)).Nodup := by
  have hkeys : (args.group.eraseDups.map SelectItem.column).map (·.output) =
      args.group.eraseDups := by
    rw [List.map_map]
    exact List.map_id _
  have haggregates : ((aggregated m requested args).map (aggregateOf args)).map (·.output) =
      (aggregated m requested args).map (·.name) := by
    rw [List.map_map]
    rfl
  rw [groupedItems_eq h, List.map_append, hkeys, haggregates, List.nodup_append]
  refine ⟨nodup_eraseDups _, ?_, ?_⟩
  · refine List.Nodup.map_on (fun a ha b hb hname => ?_) (List.Nodup.filterMap ?_ ?_)
    · obtain ⟨-, -, ha, -⟩ := mem_aggregated.mp ha
      obtain ⟨-, -, hb, -⟩ := mem_aggregated.mp hb
      rw [hname] at ha
      exact Option.some.inj (ha.symm.trans hb)
    · intro name name' a ha ha'
      rw [← Model.name_of_attribute? (stored?_eq_some.mp ha).1]
      exact Model.name_of_attribute? (stored?_eq_some.mp ha').1
    · exact (nodup_eraseDups _).filter _
  · rintro key hkey name hname rfl
    obtain ⟨a, ha, rfl⟩ := List.mem_map.mp hname
    exact (mem_aggregated.mp ha).2.1 (List.mem_eraseDups.mp hkey)

/-- Functions are given for attributes. -/
theorem exists_attribute_of_transform (h : groupedItems m requested args = .ok items) :
    ∀ t ∈ args.transform, ∃ a, m.attribute? t.1 = some a := by
  intro t ht
  obtain ⟨_, -, h⟩ := bind_eq_ok.mp h
  obtain ⟨_, htransform, -⟩ := bind_eq_ok.mp h
  obtain ⟨a, ha, -⟩ := bind_eq_ok.mp (of_forM htransform t ht)
  exact ⟨a, Model.requireAttribute_eq_ok.mp ha⟩

/-! ## Nodes -/

theorem innerAt_foldlM_attachOrder (hns : Forest s Q m ns)
    (h : order.foldlM (attachOrder s m) ns = .ok ns') : InnerAt ns' path ↔ InnerAt ns path := by
  refine (foldlM_preserves (P := fun ns' => Forest s Q m ns' ∧ (InnerAt ns' path ↔ InnerAt ns path))
    (fun ns₁ e _ ns₂ hns₁ h => ?_) ⟨hns, Iff.rfl⟩ h).2
  unfold attachOrder at h
  split at h
  · refine ⟨hns₁.1.ensurePath h, ?_⟩
    rw [Include.innerAt_ensurePath hns₁.1 h, hns₁.2]
    simp
  · cases h
    exact hns₁

/-- The entries of an order are those of its fields, and it makes no inner joins. -/
theorem entries_attachOrders (hns : Forest s Q m ns)
    (h : attachOrders s m orders ns = .ok (order, ns')) :
    (∃ entries, orders.mapM (fun o => orderEntries s m o.1 o.2) = .ok entries ∧
      order = entries.flatten) ∧ ∀ path, InnerAt ns' path ↔ InnerAt ns path := by
  induction orders generalizing ns order with
  | nil =>
    cases h
    exact ⟨⟨[], rfl, rfl⟩, fun _ => Iff.rfl⟩
  | cons o orders ih =>
    obtain ⟨es, hes, h⟩ := bind_eq_ok.mp h
    obtain ⟨ns₁, h₁, h⟩ := bind_eq_ok.mp h
    obtain ⟨⟨later, ns₂⟩, h₂, h⟩ := bind_eq_ok.mp h
    cases h
    obtain ⟨⟨entries, hentries, rfl⟩, hinner⟩ := ih (extends_foldlM_attachOrder hns h₁).2 h₂
    exact ⟨⟨es :: entries, mapM_cons_eq_ok.mpr ⟨es, entries, hes, hentries, rfl⟩, rfl⟩,
      fun path => (hinner path).trans (innerAt_foldlM_attachOrder hns h₁)⟩

section
variable (hfilter : Query.attach s m filter [] = .ok ns)
  (horder : attachOrders s m orders ns = .ok (order, ns'))
include hfilter horder

/-! What a filter and an order attach to no nodes. -/

theorem forest_attached : Forest s Q m ns' :=
  forest_attachOrders horder (Query.extends_attach .nil hfilter).1

theorem isHop_attached {n : Include} (hn : bareAt? path ns' = some n) : n.IsHop ∧
    ∃ hops, (GoesAlong filter hops ∨ OrdersAlong order hops) ∧ path <+: hops := by
  obtain ⟨hns, hext⟩ := Query.extends_attach (Q := fun _ _ => False) .nil hfilter
  have hext : Extends (fun hops => GoesAlong filter hops ∨ OrdersAlong order hops) [] ns' :=
    (hext.mono fun _ => .inl).trans ((extends_attachOrders hns horder).mono fun _ => .inr)
  obtain ⟨n', inner, hn', -⟩ | ⟨-, hnew⟩ := hext.exists_node hn
  · rw [Include.bareAt?_nil] at hn'
    cases hn'
  · exact hnew

theorem exists_attached_iff : (∃ n, bareAt? path ns' = some n) ↔ path ≠ [] ∧
    ∃ hops, (GoesAlong filter hops ∨ OrdersAlong order hops) ∧ path <+: hops := by
  constructor
  · rintro ⟨n, hn⟩
    exact ⟨Include.ne_nil_of_bareAt? hn, (isHop_attached hfilter horder hn).2⟩
  · rintro ⟨hne, hops, hgoes, hpath⟩
    obtain ⟨horders, hkeep⟩ := joined_attachOrders horder
    have hjoined : Include.Joined s false m ns' hops := by
      rcases hgoes with hgoes | ⟨e, he, model, column, ht⟩
      · exact hkeep (Query.joined_attach hfilter hgoes)
      · exact horders e he hops model column ht
    have hns' : Forest s (fun _ _ => False) m ns' := forest_attached hfilter horder
    obtain ⟨n, hn, -⟩ := ((Include.joined_iff hns').mp hjoined).2 path hne hpath
    exact ⟨n, hn⟩

theorem innerAt_attached_iff : InnerAt ns' path ↔ path ≠ [] ∧
    ∃ negated, Filter.OptionReaches filter (negated, true) ∧ path <+: negated.hops := by
  have hns : Forest s (fun _ _ => False) m ns := (Query.extends_attach .nil hfilter).1
  have hnone : ¬InnerAt [] path := by
    rintro ⟨n, hn, -⟩
    rw [Include.bareAt?_nil] at hn
    cases hn
  rw [(entries_attachOrders hns horder).2,
    Query.innerAt_attach (Q := fun _ _ => False) .nil hfilter, or_iff_right hnone]

end

/-! ## Plans -/

/-- The plan of a grouped query on `m`. Each node is the hop of an association, by which the filter
or the order goes; it is an inner join if a negated comparison goes there. -/
structure Grouped (s : Schema) (m : Model) (selection : PartialPlan) (filter : Option Filter)
    (args : Arguments) (p : Plan) : Prop where
  items : p.attributes = args.group.eraseDups.map .column ++
    (aggregated m selection.requested args).map (aggregateOf args)
  stored : ∀ item ∈ p.attributes, m.Stored item.output
  outputs : (p.attributes.map (·.output)).Nodup
  order : ∃ entries, args.order.mapM (fun o => orderEntries s m o.1 o.2) = .ok entries ∧
    p.order = orderOf m args entries.flatten
  forest : Forest s (fun _ _ => False) m p.includes
  hop : ∀ path n, bareAt? path p.includes = some n → n.IsHop
  joined : ∀ path, (∃ n, bareAt? path p.includes = some n) ↔ path ≠ [] ∧
    ∃ hops, (GoesAlong filter hops ∨ OrdersAlong p.order hops) ∧ path <+: hops
  inner : ∀ path, InnerAt p.includes path ↔ path ≠ [] ∧
    ∃ negated, Filter.OptionReaches filter (negated, true) ∧ path <+: negated.hops

namespace Composition

variable (c : Composition s selection filter args p) (hgroup : args.group ≠ [])
include hgroup

theorem groupedItems_eq_ok : groupedItems c.m selection.requested args = .ok p.attributes := by
  have hattributes := c.attributes_eq
  rw [if_pos (by simpa using hgroup)] at hattributes
  rw [hattributes, congrArg Plan.attributes c.plan_eq]

theorem attach_eq_ok : Query.attach s c.m filter [] = .ok c.filtered := by
  have hstart : startNodes selection args = [] := if_pos (by simpa using hgroup)
  rw [← hstart]
  exact c.filtered_eq

/-- There are no pages of groups, and nothing to lower in hops. -/
theorem includes_eq_ordered : p.includes = c.ordered := by
  have hpage : ¬Query.OnPage args := fun h => hgroup h.1
  have hlower := c.includes_eq
  rw [Query.pageNodes_of_not_onPage hpage,
    Include.lowerAll_of_plain (forest_attached (c.attach_eq_ok hgroup) c.ordered_eq)] at hlower
  rw [c.includes_plan]
  exact (Except.ok.inj hlower).symm

theorem grouped : p.Grouped s c.m selection filter args := by
  have hitems := c.groupedItems_eq_ok hgroup
  have hfilter := c.attach_eq_ok hgroup
  have horder : p.order = orderOf c.m args c.order := congrArg Plan.order c.plan_eq
  obtain ⟨⟨entries, hentries, hflat⟩, -⟩ :=
    entries_attachOrders (Q := fun _ _ => False) (Query.extends_attach .nil hfilter).1 c.ordered_eq
  refine ⟨groupedItems_eq hitems, stored_output hitems, nodup_outputs hitems,
    ⟨entries, hentries, hflat ▸ horder⟩, ?_, ?_, fun path => ?_, fun path => ?_⟩
  all_goals rw [c.includes_eq_ordered hgroup]
  · exact forest_attached hfilter c.ordered_eq
  · exact fun path n hn => (isHop_attached hfilter c.ordered_eq hn).1
  · rw [exists_attached_iff hfilter c.ordered_eq, horder]
    refine and_congr_right fun hne => exists_congr fun hops => and_congr_left fun hpath => ?_
    have hhops : hops ≠ [] := fun hnil => hne (List.prefix_nil.mp (hnil ▸ hpath))
    rw [ordersAlong_orderOf hhops]
  · exact innerAt_attached_iff hfilter c.ordered_eq

end Composition

/-- A grouped query selects its keys and aggregates and joins what its filter and its order need. It
fails if a key is no stored attribute, or a function is given for no attribute. -/
theorem compose_grouped (hgroup : args.group ≠ []) :
    (∀ p, compose s selection filter args = .ok p →
      ∃ m, s.model selection.model = .ok m ∧ p.Grouped s m selection filter args) ∧
    ∀ m, s.model selection.model = .ok m →
      ((∃ key ∈ args.group, ¬m.Stored key) ∨ ∃ t ∈ args.transform, m.attribute? t.1 = none) →
        ∃ e, compose s selection filter args = .error e := by
  refine ⟨fun p h => ?_, fun m hm hunknown => ?_⟩
  · obtain ⟨c⟩ := composition h
    exact ⟨c.m, c.model_eq, c.grouped hgroup⟩
  · cases h : compose s selection filter args with
    | error e => exact ⟨e, rfl⟩
    | ok p =>
      obtain ⟨c⟩ := composition h
      cases hm.symm.trans c.model_eq
      have hitems := c.groupedItems_eq_ok hgroup
      rcases hunknown with ⟨key, hkey, hstored⟩ | ⟨t, ht, hnone⟩
      · exact (hstored (stored_of_groupedItems hitems key hkey)).elim
      · obtain ⟨a, ha⟩ := exists_attribute_of_transform hitems t ht
        cases hnone.symm.trans ha

/-! ### Nodes by parent, in the order of their children -/

def byParent : Arguments where
  group := ["parent", "parent"]
  order := [("children__id", .asc)]
  transform := [("id", .max)]

def parentsSelection : PartialPlan :=
  ⟨"Node", ["id", "parent"], ["id", "parent", "id"], [childrenNode false]⟩

/-- The children are joined for the filter and the order, and nothing of them is selected. -/
def parentsPlan : Plan where
  model := "Node"
  attributes := [.column "parent", .aggregate .max "id" "id"]
  includes := [{ childrenNode true with attributes := [] }]
  filter := some hasChildren
  group := ["parent", "parent"]
  order := [⟨.column ["children"] "Node" "id", .asc⟩]

theorem compose_byParent :
    compose forest parentsSelection (some hasChildren) byParent = .ok parentsPlan := by
  rfl

theorem byParent_grouped : (∃ m, forest.model "Node" = .ok m ∧
      parentsPlan.Grouped forest m parentsSelection (some hasChildren) byParent) ∧
    ∃ e, compose forest parentsSelection none { group := ["name"] } = .error e := by
  refine ⟨(compose_grouped (List.cons_ne_nil _ _)).1 _ compose_byParent,
    (compose_grouped (List.cons_ne_nil _ _)).2 _ rfl (.inl ⟨"name", List.mem_singleton_self _, ?_⟩)⟩
  rintro ⟨a, ha, -⟩
  cases ha

end Plan

end RelQuery

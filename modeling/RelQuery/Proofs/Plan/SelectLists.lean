import RelQuery.Proofs.Plan.Merging

/-!
# Select lists of merges

The list of a query, a count or a change event selects each name once, and a grouped one nothing
but its keys and aggregates. A merge unites the select lists of its parts, whatever they select, so
it need not.
-/

namespace RelQuery.Plan

/-- No two items have one name, and a grouped plan selects its keys and aggregates only. -/
structure ValidSelect (p : Plan) : Prop where
  outputs : (p.attributes.map (·.output)).Nodup
  grouped : p.group ≠ [] → ∀ item ∈ p.attributes,
    (∃ key ∈ p.group, item = .column key) ∨ ∃ f attr output, item = .aggregate f attr output

/-- A plan that merges make of the given plans, each of them read off a query or change events. -/
inductive MergedFrom (s : Schema) : List Plan → Plan → Prop
  | rootList {p : Plan} {model : String} {field : Field} {info : ExecutionInfo} :
      Query.rootList s model field info = .ok p → MergedFrom s [p] p
  | count {p : Plan} {model : String} {field : Field} {info : ExecutionInfo} :
      Query.count s model field info = .ok p → MergedFrom s [p] p
  | associationList {p : Plan} {model : String} {field : Field} {row : Document}
      {info : ExecutionInfo} :
      Query.associationList s model field row info = .ok p → MergedFrom s [p] p
  | changedList {p : Plan} {model : String} {field : Field} {info : ExecutionInfo}
      {events : List Event} :
      Event.changedList s model field info events = .ok (some p) → MergedFrom s [p] p
  | merge {as bs : List Plan} {a b p : Plan} : MergedFrom s as a → MergedFrom s bs b →
      Plan.merge a b = .ok p → MergedFrom s (as ++ bs) p

variable {s : Schema} {m : Model} {ps : List Plan} {p q a b : Plan} {args : Arguments}
  {items more : List SelectItem} {item : SelectItem}

theorem planned_iff : Planned s p ↔ ∃ ps, MergedFrom s ps p := by
  constructor
  · intro h
    induction h with
    | rootList h => exact ⟨_, .rootList h⟩
    | count h => exact ⟨_, .count h⟩
    | associationList h => exact ⟨_, .associationList h⟩
    | changedList h => exact ⟨_, .changedList h⟩
    | merge _ _ h iha ihb =>
      obtain ⟨as, ha⟩ := iha
      obtain ⟨bs, hb⟩ := ihb
      exact ⟨as ++ bs, .merge ha hb h⟩
  · rintro ⟨ps, h⟩
    induction h with
    | rootList h => exact .rootList h
    | count h => exact .count h
    | associationList h => exact .associationList h
    | changedList h => exact .changedList h
    | merge _ _ h iha ihb => exact .merge iha ihb h

/-! ## Items -/

theorem nodup_addItem (h : items.Nodup) : (addItem items item).Nodup := by
  unfold addItem
  split
  · exact h
  · rename_i hitem
    exact List.nodup_append.mpr ⟨h, List.nodup_singleton item, fun x hx y hy hxy =>
      hitem (List.mem_singleton.mp hy ▸ hxy ▸ hx)⟩

theorem nodup_foldl_addItem (h : items.Nodup) : (more.foldl addItem items).Nodup := by
  induction more generalizing items with
  | nil => exact h
  | cons item more ih => exact ih (nodup_addItem h)

/-- An item of a plan with the given group keys. -/
inductive Fits (group : List String) : SelectItem → Prop
  | column {name : String} : (group ≠ [] → name ∈ group) → Fits group (.column name)
  | aggregate {f : Aggregate} {name : String} : group ≠ [] → name ∉ group →
      Fits group (.aggregate f name name)
  | count : group = [] → Fits group .count

/-- What a plan selects that is no merge: a count alone, or columns and aggregates, one of each
attribute. -/
structure Listed (p : Plan) : Prop where
  nodup : p.attributes.Nodup
  fits : ∀ item ∈ p.attributes, Fits p.group item
  functions : ∀ f g name, .aggregate f name name ∈ p.attributes →
    .aggregate g name name ∈ p.attributes → f = g
  count : .count ∈ p.attributes → p.attributes = [.count]

theorem column_of_plainItems {attributes : List String} (h : item ∈ plainItems m attributes) :
    ∃ name, item = .column name := by
  rcases mem_foldl_addItem.mp h with h | h
  · cases h
  · obtain ⟨name, -, rfl⟩ := List.mem_map.mp h
    exact ⟨name, rfl⟩

theorem listed_plainItems {attributes : List String} (hp : p.attributes = plainItems m attributes)
    (hgroup : p.group = []) : p.Listed := by
  have hcolumn : ∀ item ∈ p.attributes, ∃ name, item = .column name :=
    fun _ hitem => column_of_plainItems (hp ▸ hitem)
  refine ⟨hp ▸ nodup_foldl_addItem List.nodup_nil, fun item hitem => ?_, fun f g name hf => ?_,
    fun hcount => ?_⟩
  · obtain ⟨name, rfl⟩ := hcolumn item hitem
    exact .column fun hne => (hne hgroup).elim
  · obtain ⟨_, hf⟩ := hcolumn _ hf
    cases hf
  · obtain ⟨_, hcount⟩ := hcolumn _ hcount
    cases hcount

theorem groupKey_eq_ok {key : String} (h : groupKey m key = .ok item) :
    item = .column key ∧ m.Stored key := by
  obtain ⟨a, ha, h⟩ := bind_eq_ok.mp h
  have ha := Model.requireAttribute_eq_ok.mp ha
  split at h
  · cases h
  · rename_i hstored
    cases h
    exact ⟨by rw [Model.name_of_attribute? ha], a, ha,
      by simpa [Attribute.isComputed] using hstored⟩

/-- The function by which a grouped query aggregates an attribute. -/
def functionOf (m : Model) (args : Arguments) (name : String) : Option Aggregate :=
  (m.attribute? name).map fun a => (args.transform.lookup name).getD (.ofType a.type)

theorem aggregate?_eq_some {name : String} (h : aggregate? m args name = some item) :
    ∃ f, item = .aggregate f name name ∧ name ∉ args.group ∧ functionOf m args name = some f ∧
      m.Stored name := by
  unfold aggregate? at h
  split at h
  · cases h
  · rename_i hkey
    split at h
    · cases h
    · rename_i a ha
      split at h
      · cases h
      · rename_i hstored
        cases h
        refine ⟨_, by rw [Model.name_of_attribute? ha],
          fun hmem => hkey (List.contains_iff_mem.mpr hmem), ?_, a, ha,
          by simpa [Attribute.isComputed] using hstored⟩
        rw [functionOf, ha, Option.map_some]

theorem mem_groupedItems {requested : List String}
    (h : groupedItems m requested args = .ok items) (hitem : item ∈ items) :
    (∃ key ∈ args.group, item = .column key) ∨
      ∃ f name, item = .aggregate f name name ∧ name ∉ args.group ∧
        functionOf m args name = some f ∧ m.Stored name := by
  obtain ⟨keys, hkeys, h⟩ := bind_eq_ok.mp h
  obtain ⟨_, -, h⟩ := bind_eq_ok.mp h
  cases h
  rcases mem_foldl_addItem.mp hitem with hitem | hitem
  · cases hitem
  · rcases List.mem_append.mp hitem with hitem | hitem
    · obtain ⟨key, hkey, hitem⟩ := mem_of_mapM hkeys hitem
      exact .inl ⟨key, hkey, (groupKey_eq_ok hitem).1⟩
    · obtain ⟨name, -, hitem⟩ := List.mem_filterMap.mp hitem
      obtain ⟨f, hf⟩ := aggregate?_eq_some hitem
      exact .inr ⟨f, name, hf⟩

theorem stored_of_groupedItems {requested : List String}
    (h : groupedItems m requested args = .ok items) : ∀ key ∈ args.group, m.Stored key := by
  intro key hkey
  obtain ⟨keys, hkeys, -⟩ := bind_eq_ok.mp h
  obtain ⟨item, -, hitem⟩ := of_mem_mapM hkeys hkey
  exact (groupKey_eq_ok hitem).2

theorem listed_groupedItems {requested : List String} (hgroup : p.group = args.group)
    (hne : args.group ≠ []) (h : groupedItems m requested args = .ok p.attributes) : p.Listed := by
  refine ⟨?_, fun item hitem => ?_, fun f g name hf hg => ?_, fun hcount => ?_⟩
  · obtain ⟨keys, -, h⟩ := bind_eq_ok.mp h
    obtain ⟨_, -, h⟩ := bind_eq_ok.mp h
    exact Except.ok.inj h ▸ nodup_foldl_addItem List.nodup_nil
  · rw [hgroup]
    rcases mem_groupedItems h hitem with ⟨key, hkey, rfl⟩ | ⟨f, name, rfl, hname, -⟩
    · exact .column fun _ => hkey
    · exact .aggregate hne hname
  · rcases mem_groupedItems h hf with ⟨_, _, ⟨⟩⟩ | ⟨_, _, ⟨⟩, -, hf, -⟩
    rcases mem_groupedItems h hg with ⟨_, _, ⟨⟩⟩ | ⟨_, _, ⟨⟩, -, hg, -⟩
    exact Option.some.inj (hf.symm.trans hg)
  · rcases mem_groupedItems h hcount with ⟨_, _, ⟨⟩⟩ | ⟨_, _, ⟨⟩, -⟩

/-! ## Queries -/

theorem listed_of_compose {selection : PartialPlan} {filter : Option Filter}
    (h : compose s selection filter args = .ok p) : p.Listed ∧ p.group = args.group := by
  obtain ⟨c⟩ := composition h
  have hattributes := c.attributes_eq
  have hgroup : p.group = args.group := by rw [c.plan_eq]
  have hitems : p.attributes = c.attributes := congrArg attributes c.plan_eq
  rw [← hitems] at hattributes
  refine ⟨?_, hgroup⟩
  cases hargs : args.group with
  | nil =>
    rw [hargs] at hattributes
    exact listed_plainItems (Except.ok.inj hattributes).symm (hgroup.trans hargs)
  | cons key keys =>
    have hne : args.group ≠ [] := hargs ▸ List.cons_ne_nil key keys
    rw [if_pos (by rw [hargs]; rfl)] at hattributes
    exact listed_groupedItems hgroup hne hattributes

theorem listed_of_applyArguments {selection : PartialPlan}
    (h : Query.applyArguments s selection args = .ok p) : p.Listed ∧ p.group = args.group := by
  obtain ⟨m, filter, conditions, ns, -, -, -, h⟩ := Query.applyArguments_eq_ok h
  exact listed_of_compose h

theorem listed_of_rootList {model : String} {field : Field} {info : ExecutionInfo}
    (h : Query.rootList s model field info = .ok p) : p.Listed := by
  obtain ⟨selection, -, h⟩ := bind_eq_ok.mp h
  obtain ⟨args, -, h⟩ := bind_eq_ok.mp h
  exact (listed_of_applyArguments h).1

theorem listed_of_count {model : String} {field : Field} {info : ExecutionInfo}
    (h : Query.count s model field info = .ok p) : p.Listed := by
  obtain ⟨m, -, h⟩ := bind_eq_ok.mp h
  obtain ⟨args, -, h⟩ := bind_eq_ok.mp h
  obtain ⟨q, hq, h⟩ := bind_eq_ok.mp h
  cases h
  refine ⟨List.nodup_singleton _, ?_, fun f g name hf => ?_, fun _ => rfl⟩
  · exact List.forall_mem_singleton.mpr (.count (listed_of_applyArguments hq).2)
  · cases List.mem_singleton.mp hf

theorem Listed.restrict {f : Filter} (h : p.Listed) : (Query.restrict p f).Listed :=
  ⟨h.nodup, h.fits, h.functions, h.count⟩

/-! ## Parts of a merge -/

theorem group_of_merge (h : merge a b = .ok p) :
    (a.group = [] ∨ a.group = p.group) ∧ (b.group = [] ∨ b.group = p.group) := by
  obtain ⟨-, includes, group, order, limit, offset, -, hgroup, -, -, -, rfl⟩ := merge_eq_ok h
  obtain ⟨hcompat, rfl⟩ := agree_eq_ok.mp hgroup
  cases ha : a.group with
  | nil => exact ⟨.inl rfl, .inr (getD_given? b.group).symm⟩
  | cons key keys =>
    refine ⟨.inr rfl, ?_⟩
    cases hb : b.group with
    | nil => exact .inl rfl
    | cons key' keys' =>
      rw [ha, hb] at hcompat
      exact .inr (hcompat _ rfl _ rfl).symm

/-- A merge selects what its parts select, each of which is listed and groups like it or not. -/
structure Parts (ps : List Plan) (p : Plan) : Prop where
  listed : ∀ a ∈ ps, a.Listed
  group : ∀ a ∈ ps, a.group = [] ∨ a.group = p.group
  nodup : p.attributes.Nodup
  mem_attributes : ∀ {item}, item ∈ p.attributes ↔ ∃ a ∈ ps, item ∈ a.attributes

theorem Listed.parts (h : p.Listed) : Parts [p] p where
  listed := List.forall_mem_singleton.mpr h
  group := List.forall_mem_singleton.mpr (.inr rfl)
  nodup := h.nodup
  mem_attributes := by simp

theorem Parts.merge {as bs : List Plan} (ha : Parts as a) (hb : Parts bs b)
    (h : merge a b = .ok p) : Parts (as ++ bs) p := by
  obtain ⟨hgroup, hgroup'⟩ := group_of_merge h
  obtain ⟨includes, hp⟩ := mergeOf_of_merge h
  have hshared {c d : Plan} (hcd : c.group = [] ∨ c.group = d.group)
      (hd : d.group = [] ∨ d.group = p.group) : c.group = [] ∨ c.group = p.group := by
    rcases hcd with hcd | hcd
    · exact .inl hcd
    · exact hcd ▸ hd
  refine ⟨List.forall_mem_append.mpr ⟨ha.listed, hb.listed⟩,
    List.forall_mem_append.mpr ⟨fun c hc => hshared (ha.group c hc) hgroup,
      fun c hc => hshared (hb.group c hc) hgroup'⟩, ?_, fun {item} => ?_⟩
  · rw [hp.attributes]
    exact nodup_foldl_addItem ha.nodup
  · rw [hp.attributes, mem_foldl_addItem, ha.mem_attributes, hb.mem_attributes]
    simp only [List.mem_append, or_and_right, exists_or]

theorem MergedFrom.parts (h : MergedFrom s ps p) : Parts ps p := by
  induction h with
  | rootList h => exact (listed_of_rootList h).parts
  | count h => exact (listed_of_count h).parts
  | associationList h =>
    obtain ⟨_, _, _, _, _, q, -, -, -, -, -, hq, rfl⟩ := Query.associationList_eq_ok h
    exact (listed_of_rootList hq).restrict.parts
  | changedList h =>
    obtain ⟨_, _, _, q, -, -, -, hq, rfl⟩ := Event.changedList_eq_ok h
    exact (listed_of_rootList hq).restrict.parts
  | merge _ _ h iha ihb => exact iha.merge ihb h

/-! ## Valid merges -/

/-- Select lists that can be united: under group keys the ungrouped plans select keys only, no
attribute is aggregated by two functions, and no column has the name of a count. -/
structure GoTogether (group : List String) (ps : List Plan) : Prop where
  keys : group ≠ [] → ∀ a ∈ ps, a.group = [] → ∀ item ∈ a.attributes,
    ∃ key ∈ group, item = .column key
  functions : ∀ a ∈ ps, ∀ b ∈ ps, ∀ f g name, .aggregate f name name ∈ a.attributes →
    .aggregate g name name ∈ b.attributes → f = g
  count : ∀ a ∈ ps, ∀ b ∈ ps, .count ∈ a.attributes → .column countColumn ∉ b.attributes

namespace Parts

theorem goTogether (h : Parts ps p) (hp : p.ValidSelect) : GoTogether p.group ps := by
  have hinj {x y : SelectItem} (hx : ∃ a ∈ ps, x ∈ a.attributes)
      (hy : ∃ b ∈ ps, y ∈ b.attributes) (hout : x.output = y.output) : x = y :=
    List.inj_on_of_nodup_map hp.outputs (h.mem_attributes.mpr hx) (h.mem_attributes.mpr hy) hout
  refine ⟨fun hne a ha hgroup item hitem => ?_, fun a ha b hb f g name hf hg => ?_,
    fun a ha b hb hcount hcolumn => ?_⟩
  · rcases hp.grouped hne item (h.mem_attributes.mpr ⟨a, ha, hitem⟩) with hkey | ⟨f, attr, out, rfl⟩
    · exact hkey
    · cases (h.listed a ha).fits _ hitem with
      | aggregate hne => exact (hne hgroup).elim
  · cases hinj ⟨a, ha, hf⟩ ⟨b, hb, hg⟩ rfl
    rfl
  · cases hinj ⟨a, ha, hcount⟩ ⟨b, hb, hcolumn⟩ rfl

/-- Under group keys an ungrouped part does not get into the way of a grouped one. -/
theorem fits (h : Parts ps p) (hps : GoTogether p.group ps) (hitem : item ∈ p.attributes) :
    Fits p.group item := by
  obtain ⟨a, ha, hitem⟩ := h.mem_attributes.mp hitem
  rcases h.group a ha with hgroup | hgroup
  · by_cases hp : p.group = []
    · exact hp.trans hgroup.symm ▸ (h.listed a ha).fits item hitem
    · obtain ⟨key, hkey, rfl⟩ := hps.keys hp a ha hgroup item hitem
      exact .column fun _ => hkey
  · exact hgroup ▸ (h.listed a ha).fits item hitem

theorem eq_of_output {x y : SelectItem} (h : Parts ps p) (hps : GoTogether p.group ps)
    (hx : x ∈ p.attributes) (hy : y ∈ p.attributes) (hout : x.output = y.output) : x = y := by
  have hcount {name : String} (hcount : .count ∈ p.attributes) (hname : .column name ∈ p.attributes)
      (hout : countColumn = name) : False := by
    obtain ⟨a, ha, hcount⟩ := h.mem_attributes.mp hcount
    obtain ⟨b, hb, hname⟩ := h.mem_attributes.mp hname
    exact hps.count a ha b hb hcount (hout ▸ hname)
  cases h.fits hps hx with
  | column hkey =>
    cases h.fits hps hy with
    | column => exact congrArg _ hout
    | aggregate hne hname =>
      cases hout
      exact (hname (hkey hne)).elim
    | count => exact (hcount hy hx hout.symm).elim
  | aggregate hne hname =>
    cases h.fits hps hy with
    | column hkey =>
      cases hout
      exact (hname (hkey hne)).elim
    | aggregate =>
      cases hout
      obtain ⟨a, ha, hx⟩ := h.mem_attributes.mp hx
      obtain ⟨b, hb, hy⟩ := h.mem_attributes.mp hy
      rw [hps.functions a ha b hb _ _ _ hx hy]
    | count hgroup => exact (hne hgroup).elim
  | count hgroup =>
    cases h.fits hps hy with
    | column => exact (hcount hx hy hout).elim
    | aggregate hne => exact (hne hgroup).elim
    | count => rfl

theorem validSelect (h : Parts ps p) (hps : GoTogether p.group ps) : p.ValidSelect where
  outputs := List.Nodup.map_on (fun _ hx _ hy => h.eq_of_output hps hx hy) h.nodup
  grouped hne item hitem := by
    cases h.fits hps hitem with
    | column hkey => exact .inl ⟨_, hkey hne, rfl⟩
    | aggregate => exact .inr ⟨_, _, _, rfl⟩
    | count hgroup => exact (hne hgroup).elim

end Parts

/-- Every query, count and list of changes has a valid select list. A merge of them has one exactly
if their select lists go together. -/
theorem MergedFrom.validSelect_iff (h : MergedFrom s ps p) :
    (∀ a ∈ ps, a.ValidSelect) ∧ (p.ValidSelect ↔ GoTogether p.group ps) := by
  refine ⟨fun a ha => ?_, h.parts.goTogether, h.parts.validSelect⟩
  have hlisted := h.parts.listed a ha
  refine hlisted.parts.validSelect ⟨fun hne => ?_, ?_, ?_⟩
  · exact List.forall_mem_singleton.mpr fun hgroup => (hne hgroup).elim
  · simpa only [List.forall_mem_singleton] using hlisted.functions
  · simp only [List.forall_mem_singleton]
    intro hcount hcolumn
    rw [hlisted.count hcount] at hcolumn
    cases List.mem_singleton.mp hcolumn

end RelQuery.Plan

/-! ### Sales by region -/

namespace RelQuery

def sales : Config where
  models := [
    { name := "Sale"
      attributes := [{ name := "id", type := "INTEGER", primaryKey := true },
        { name := "region", type := "STRING" }, { name := "price", type := "DECIMAL" },
        { name := "day", type := "DATE" }] }]

def salesSchema : Schema := ⟨sales.models.map (·.resolve), sales.options⟩

theorem build_sales : Schema.build sales = .ok salesSchema := by decide

def salesOf (attr : String) (arguments : List (String × Argument)) : Field where
  name := "sales"
  arguments := arguments
  selections := [.field attr none [] []]

def byRegion : List (String × Argument) :=
  [("query", .object [("group", .list [.scalar (.str "region")])])]

/-- A grouped list with one aggregate. -/
def regionPlan (f : Aggregate) (attr : String) : Plan where
  model := "Sale"
  attributes := [.column "region", .aggregate f attr attr]
  group := ["region"]
  order := [⟨.column [] "Sale" "region", .asc⟩]

def pricesPlan : Plan where
  model := "Sale"
  attributes := [.column "price", .column "id"]

theorem rootList_pricesByRegion :
    Query.rootList salesSchema "Sale" (salesOf "price" byRegion) {} =
      .ok (regionPlan .sum "price") := by
  rfl

theorem rootList_daysByRegion :
    Query.rootList salesSchema "Sale" (salesOf "day" byRegion) {} =
      .ok (regionPlan .max "day") := by
  rfl

theorem rootList_prices :
    Query.rootList salesSchema "Sale" (salesOf "price" []) {} = .ok pricesPlan := by
  rfl

theorem regions_validSelect : ∃ p,
    Plan.merge (regionPlan .sum "price") (regionPlan .max "day") = .ok p ∧ p.ValidSelect := by
  refine ⟨_, rfl, (Plan.MergedFrom.validSelect_iff (.merge (.rootList rootList_pricesByRegion)
    (.rootList rootList_daysByRegion) rfl)).2.mpr ⟨fun _ => ?_, ?_, ?_⟩⟩
  · simp [regionPlan]
  · simp [regionPlan]
  · simp [regionPlan]

/-- The prices of all sales stand beside the sum for each region, and under its name. -/
theorem prices_not_validSelect : Schema.build sales = .ok salesSchema ∧ ∃ a b p,
    Query.rootList salesSchema "Sale" (salesOf "price" byRegion) {} = .ok a ∧
    Query.rootList salesSchema "Sale" (salesOf "price" []) {} = .ok b ∧
    Plan.merge a b = .ok p ∧ p.group = ["region"] ∧ .column "price" ∈ p.attributes ∧
    .aggregate .sum "price" "price" ∈ p.attributes ∧ ¬p.ValidSelect := by
  refine ⟨build_sales, _, _, _, rootList_pricesByRegion, rootList_prices, rfl, rfl, ?_, ?_,
    fun h => absurd h.outputs ?_⟩
  · decide
  · decide
  · decide

end RelQuery

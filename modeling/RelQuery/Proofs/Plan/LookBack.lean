import RelQuery.Proofs.Include.Reads
import RelQuery.Proofs.Plan.Regular

/-!
# Lists whose joins look back

A filter in the selection of a list is written in the ON condition of its node's join. If it leaves
the model of the node, it names a join below the node, and that is written later. So the joins of a
list look back if no filter in its selection leaves its model.
-/

namespace RelQuery

/-- No filter of an include that is selected leaves the model of the include. -/
def PartialPlan.LocalFilters (selection : PartialPlan) : Prop :=
  ∀ hops n f, Include.nodeAt? hops selection.includes = some n → n.filter = some f → f.Local

variable {s : Schema} {m : Model} {p : Plan} {selection : PartialPlan} {model : String}
  {field : Field} {info : ExecutionInfo}

theorem Include.filterBuilt_sourced (s : Schema) :
    Include.FilterBuilt s fun t f => f.Sourced s t where
  lacks _ := Filter.Source.comparison.sourced rfl
  compile ht h := Filter.sourced_of_compile ht h
  all := .combine
  merge hf hg h := Filter.Sourced.merge? (fun _ heq => Option.some.inj heq ▸ hf)
    (fun _ heq => Option.some.inj heq ▸ hg) h

namespace Query

/-- The filters of a list's includes do not leave their models if those of its selection do not. -/
theorem reads_rootList (h : rootList s model field info = .ok p)
    (hsel : Include.plan s info model field.selections none [] = .ok selection)
    (hlocal : selection.LocalFilters) : ∃ m, s.model p.model = .ok m ∧
      ∀ n ∈ p.includes, n.Reads s Include.OwnModel m m.name := by
  obtain ⟨selection', hsel', h⟩ := bind_eq_ok.mp h
  cases hsel.symm.trans hsel'
  obtain ⟨args, -, h⟩ := bind_eq_ok.mp h
  obtain ⟨m, hm, -⟩ := bind_eq_ok.mp hsel
  have hselm := Include.model_of_plan hm hsel
  obtain ⟨n, filter, conditions, ns, hn, -, hex, h⟩ := applyArguments_eq_ok h
  cases hselm.symm.trans hn
  obtain ⟨c⟩ := Plan.composition h
  cases hselm.symm.trans c.model_eq
  have hforest := (Include.forest_of_plan (Include.filterBuilt_sourced s) hm hsel).strengthen hlocal
  refine ⟨c.m, c.plan_model, ?_⟩
  rw [c.includes_plan]
  exact Include.reads_of_lowerAll c.includes_eq
    (Plan.forest_pageNodes (c.forest_ordered (forest_exclude hex hforest)))

/-- If no filter in the selection of a list leaves its model, then in its FROM clause every join
names only tables that it introduces itself, or that stand before it. -/
theorem looksBack_of_rootList {c : Config} (hs : Schema.build c = .ok s)
    (h : rootList s model field info = .ok p)
    (hsel : Include.plan s info model field.selections none [] = .ok selection)
    (hlocal : selection.LocalFilters) :
    ∃ q, p.select s = .ok q ∧ Join.AllLookBack s [q.name] q.joins := by
  obtain ⟨m, hm, hreads⟩ := reads_rootList h hsel hlocal
  obtain ⟨n, hp⟩ := (Plan.Planned.rootList h).writable (Schema.sound_of_build hs)
  obtain ⟨st, hst⟩ := hp.exists_statement
  obtain ⟨q, hq, -⟩ := bind_eq_ok.mp hst
  obtain ⟨m', hm', hname, hjoins, -, -⟩ := Plan.select_eq_ok hq
  cases hm.symm.trans hm'
  refine ⟨q, hq, Include.allLookBack_joinsAll hreads ?_ hjoins⟩
  rw [hname]
  exact List.mem_singleton_self _

end Query

/-! ### Orders with their customer -/

def shop : Config where
  models := [
    { name := "Customer"
      attributes := [{ name := "id", type := "INTEGER", primaryKey := true },
        { name := "country", type := "STRING" }]
      associations := [{
        kind := .hasMany
        target := "Order"
        declaredName := some "orders"
        foreignKey := "customerId" }] },
    { name := "Order"
      attributes := [{ name := "id", type := "INTEGER", primaryKey := true },
        { name := "customerId", type := "INTEGER" }, { name := "status", type := "STRING" }]
      associations := [{
        kind := .belongsTo
        target := "Customer"
        declaredName := some "customer"
        foreignKey := "customerId" }] }]

def shopSchema : Schema := ⟨shop.models.map (·.resolve), shop.options⟩

theorem build_shop : Schema.build shop = .ok shopSchema := by decide

/-- The customer of an order, with a filter that is a variable. -/
def customerField : Field where
  name := "customer"
  arguments := [("query", .object [("where", .var "condition")])]
  selections := [.field "country" none [] []]

def customerOrders : Field where
  name := "orders"
  selections := [.field "customer" none customerField.arguments customerField.selections]

def customerNode (f : Filter) (below : List Include) : Include where
  target := "Customer"
  name := "customer"
  kind := .belongsTo
  attributes := ["country"]
  filter := some f
  includes := below

def customerSelection (n : Include) : PartialPlan where
  model := "Order"
  attributes := ["customerId"]
  includes := [n]

/-- The selection of a field that leads to one other model. -/
theorem plan_of_ofField {selections : List Selection} {assoc : Association} {n : Include} {d : Nat}
    (hm : s.model model = .ok m) (hfields : info.expand selections = .ok [field])
    (hd : info.depthBound selections = d + 1) (hattr : m.attribute? field.name = none)
    (hassoc : m.associationForField? field.name = some assoc)
    (hjoin : field.isOptimized info = true) (hone : assoc.kind.isMany = false)
    (hn : Include.ofField s info (Include.planLevel s info d) assoc field = .ok n) :
    Include.plan s info model selections none [] =
      .ok { model := m.name, attributes := [assoc.parentKey m], includes := [n] } := by
  simp [Include.plan, hm, hfields, hd, Include.planLevel, Include.Level.addField, hattr, hassoc,
    Include.Level.addAssociation, hjoin, hone, hn, Include.insert, Include.mergeAll, Include.upsert,
    addName]

def customerModel : Model :=
  ⟨"Customer", "customers", [⟨"id", "id", .integer, false, true, none⟩,
    ⟨"country", "country", .string, true, false, none⟩],
    [⟨"orders", .hasMany, "Customer", "Order", "customerId", none, none⟩]⟩

def orderModel : Model :=
  ⟨"Order", "orders", [⟨"id", "id", .integer, false, true, none⟩,
    ⟨"customerId", "customerId", .integer, true, false, none⟩,
    ⟨"status", "status", .string, true, false, none⟩],
    [⟨"customer", .belongsTo, "Order", "Customer", "customerId", none, none⟩]⟩

theorem plan_customer {fields : Fields} {f : Filter} {below : List Include}
    (hf : Filter.compile shopSchema "Customer" (.obj fields) = .ok f)
    (hproper : f.proper? = some f)
    (hbelow : Include.attachFilter shopSchema customerModel f [] = .ok below) :
    Include.plan shopSchema { bindings := [("condition", .obj fields)] } "Order"
      customerOrders.selections none [] = .ok (customerSelection (customerNode f below)) := by
  have hfields : ExecutionInfo.expand { bindings := [("condition", .obj fields)] }
    customerOrders.selections = .ok [customerField] := rfl
  have hm : shopSchema.model "Order" = .ok orderModel := rfl
  have hassoc : orderModel.associationForField? customerField.name =
      some ⟨"customer", .belongsTo, "Order", "Customer", "customerId", none, none⟩ := rfl
  refine plan_of_ofField (d := 2) hm hfields rfl rfl hassoc rfl rfl ?_
  change Include.applyArguments shopSchema customerModel { customerNode f [] with filter := none }
    { filter := some (.obj fields) } = _
  have hname : customerModel.name = "Customer" := rfl
  have hnone : (customerNode f []).includes = [] := rfl
  simp only [Include.applyArguments, hname, hf, hnone, hbelow, hproper, ok_bind]
  rfl

def customerPlan (n : Include) : Plan where
  model := "Order"
  attributes := [.column "customerId", .column "id"]
  includes := [n]

/-! #### Their customer, if it is in one country -/

def inCountry : Document := .obj [("country", .str "NZ")]

def countryIs : Filter :=
  .comparison ⟨⟨[], "country", []⟩, .eq, .plain (.str "NZ"), some .string, false⟩

theorem compile_inCountry : Filter.compile shopSchema "Customer" inCountry = .ok countryIs := by
  simp only [inCountry, Filter.compile, Filter.compileValue, Filter.compileFields]
  rfl

theorem plan_inCountry : Include.plan shopSchema { bindings := [("condition", inCountry)] } "Order"
    customerOrders.selections none [] = .ok (customerSelection (customerNode countryIs [])) :=
  plan_customer compile_inCountry rfl rfl

theorem rootList_inCountry : Query.rootList shopSchema "Order" customerOrders
    { bindings := [("condition", inCountry)] } =
      .ok (customerPlan (customerNode countryIs [])) := by
  unfold Query.rootList
  rw [plan_inCountry]
  rfl

theorem localFilters_inCountry : (customerSelection (customerNode countryIs [])).LocalFilters := by
  intro hops n f hn hf
  cases Include.eq_of_nodeAt?_singleton rfl hn
  cases hf
  refine Filter.Behind.leaf rfl fun path negated hr => ?_
  cases hr
  rfl

theorem inCountry_looksBack : ∃ q, (customerPlan (customerNode countryIs [])).select shopSchema =
    .ok q ∧ Join.AllLookBack shopSchema [q.name] q.joins :=
  Query.looksBack_of_rootList build_shop rootList_inCountry plan_inCountry localFilters_inCountry

/-! #### Their customer, if it has a paid order -/

def hasPaid : Document := .obj [("orders__status", .str "paid")]

def orderIsPaid : Filter :=
  .comparison ⟨⟨["orders"], "status", []⟩, .eq, .plain (.str "paid"), some .string, false⟩

def ordersNode : Include where
  target := "Order"
  name := "orders"
  kind := .hasMany

theorem compile_hasPaid : Filter.compile shopSchema "Customer" hasPaid = .ok orderIsPaid := by
  simp only [hasPaid, Filter.compile, Filter.compileValue, Filter.compileFields]
  rfl

theorem plan_hasPaid : Include.plan shopSchema { bindings := [("condition", hasPaid)] } "Order"
    customerOrders.selections none [] =
      .ok (customerSelection (customerNode orderIsPaid [ordersNode])) :=
  plan_customer compile_hasPaid rfl rfl

theorem rootList_hasPaid : Query.rootList shopSchema "Order" customerOrders
    { bindings := [("condition", hasPaid)] } =
      .ok (customerPlan (customerNode orderIsPaid [ordersNode])) := by
  unfold Query.rootList
  rw [plan_hasPaid]
  rfl

/-- The condition of the customer's join names the orders, whose join is written after it. -/
theorem hasPaid_not_looksBack : Schema.build shop = .ok shopSchema ∧ ∃ p q,
    Query.rootList shopSchema "Order" customerOrders { bindings := [("condition", hasPaid)] } =
      .ok p ∧ p.select shopSchema = .ok q ∧ ¬Join.AllLookBack shopSchema [q.name] q.joins := by
  refine ⟨build_shop, _, _, rootList_hasPaid, rfl, fun h => ?_⟩
  have hmem : "Order->customer->orders" ∈ ["Order", "Order->customer"] :=
    h.1.tables (by decide)
  exact absurd hmem (by decide)

end RelQuery

import RelQuery.Proofs.Include.Loading
import RelQuery.Proofs.Plan.LookBack
import RelQuery.Proofs.Plan.MergeAssoc

/-!
# Merges that stay executable

In the statements of an executable plan every name of a table is that of one in the FROM clause. The
filter and the order of a list lead through joined nodes. They still do in a merge, and the filters
of includes read what they did, if the two plans load alike the includes that both have.
-/

namespace RelQuery

variable {s : Schema} {Q Q' : Model → Filter → Prop} {m parent : Model} {a b p : Plan}
  {ns includes : List Include} {table : String}

/-! ## Statements in scope -/

/-- The clauses of a statement name only tables of its FROM clause. -/
structure Select.InScope (s : Schema) (q : Select) : Prop where
  condition : ∀ c, q.condition = some c → c.In s q.tables
  order : ∀ ps ∈ q.order, Sql.tables ps ⊆ q.tables
  joins : ∀ j ∈ q.joins, ∀ c, j.filter = some c → c.In s q.tables

theorem Include.Below.reads {R : Model → List Include → List String → Prop} {n : Include}
    (h : Below s m ns parent n) (hns : ∀ n ∈ ns, n.Reads s R m table) :
    ∃ table, n.Reads s R parent table := by
  induction h generalizing table with
  | here hn => exact ⟨table, hns _ hn⟩
  | under hc hf _ ih => exact ih fun d hd => (hns _ hc).includes hf hd

namespace Plan

/-- The filter and the order of a plan on `m` lead through joined nodes. -/
structure ThroughJoins (s : Schema) (m : Model) (p : Plan) : Prop where
  filter : ∀ f, p.filter = some f → f.Reads s m m.name (Include.Joined s false m p.includes)
  order : ∀ e ∈ p.order, ∀ hops model column, e.target = .column hops model column →
    Include.Joined s false m p.includes hops

/-- The filters of all includes of a plan on `m` lead through joined nodes. -/
def IncludesThroughJoins (s : Schema) (m : Model) (p : Plan) : Prop :=
  ∀ n ∈ p.includes, n.Reads s (Include.ThroughJoins s) m m.name

/-- A plan on `m` has its statement, and this one and those of its separate includes name only
tables of their FROM clauses. -/
structure Executable (s : Schema) (m : Model) (p : Plan) : Prop where
  select : ∃ q, p.select s = .ok q ∧ q.InScope s
  batches : ∀ parent n, Include.Below s m p.includes parent n → n.separate = true →
    ∀ keys b, n.batch s parent keys = .ok b → b.InScope s

theorem ThroughJoins.executable (h : p.ThroughJoins s m) (hi : p.IncludesThroughJoins s m)
    (hm : s.model p.model = .ok m) (hst : ∃ st, p.statement s = .ok st) : p.Executable s m := by
  obtain ⟨st, hst⟩ := hst
  obtain ⟨q, hq, -⟩ := bind_eq_ok.mp hst
  obtain ⟨m', hm', hname, hjoins, hcondition, horder⟩ := select_eq_ok hq
  cases hm.symm.trans hm'
  refine ⟨⟨q, hq, fun c hc => ?_, tables_order hname hjoins h.order horder, fun j hj c hc => ?_⟩,
    fun parent n hn hs keys b hb => ?_⟩
  · obtain ⟨f, hf, hc⟩ := exists_left_of_rel (Filter.rel_condition? hcondition) hc
    exact (h.filter f hf).condition (Schema.mem_of_model hm)
      (fun hops hh => hname ▸ mem_tables hname hjoins hh) hc
  · exact (Include.in_joinsAll hi hjoins hj hc).mono (List.subset_cons_self _ _)
  · obtain ⟨table, hn⟩ := hn.reads hi
    exact hn.in_batch hs hb

/-! ## Lists -/

theorem Composition.throughJoins {selection : PartialPlan} {filter : Option Filter}
    {args : Arguments} (c : Composition s selection filter args p)
    (h : ∀ f, filter = some f → f.Sourced s c.m) : p.ThroughJoins s c.m := by
  refine ⟨fun g hg => ?_, c.pathsJoined.order⟩
  obtain ⟨f, hf, hlower⟩ := c.lower_eq hg
  refine (h f hf).lower (fun path negated hr => ?_) hlower
  obtain ⟨l, hl, hr⟩ := hr
  exact (c.pathsJoined.filter f hf l hl path negated hr).outer

/-- The filter and the order of a list lead through joined nodes. -/
theorem throughJoins_rootList {model : String} {field : Field} {info : ExecutionInfo}
    (hm : s.model model = .ok m) (h : Query.rootList s model field info = .ok p) :
    p.ThroughJoins s m := by
  obtain ⟨selection, hsel, h⟩ := bind_eq_ok.mp h
  obtain ⟨args, -, h⟩ := bind_eq_ok.mp h
  obtain ⟨n, filter, conditions, ns, hn, hfilter, hex, h⟩ := Query.applyArguments_eq_ok h
  cases (Include.model_of_plan hm hsel).symm.trans hn
  obtain ⟨c⟩ := composition h
  cases hn.symm.trans c.model_eq
  exact c.throughJoins fun f hf => Query.condition_of_applyArguments
    (Include.filterBuilt_sourced s) (Schema.model_name c.model_eq) hfilter hex hf

/-- The filters of a list's includes lead through joined nodes if no filter in its selection leaves
its model. -/
theorem includesThroughJoins_rootList {model : String} {field : Field} {info : ExecutionInfo}
    {selection : PartialPlan} (h : Query.rootList s model field info = .ok p)
    (hsel : Include.plan s info model field.selections none [] = .ok selection)
    (hlocal : selection.LocalFilters) (hm : s.model p.model = .ok m) :
    p.IncludesThroughJoins s m := by
  obtain ⟨m', hm', hreads⟩ := Query.reads_rootList h hsel hlocal
  cases hm.symm.trans hm'
  refine fun n hn => (hreads n hn).mono fun hh => ?_
  cases hh
  exact .nil

/-! ## Merges -/

/-- A merge has the order of one of its sides. -/
theorem MergeOf.order_eq (h : MergeOf a b p includes) : p.order = a.order ∨ p.order = b.order := by
  have horder := h.order
  cases ha : given? a.order with
  | none =>
    rw [ha, Option.none_or] at horder
    exact .inr (given?_injective horder)
  | some order =>
    rw [ha, Option.some_or, ← ha] at horder
    exact .inl (given?_injective horder)

section
variable (h : MergeOf a b p includes) (ha : a.Regular s Q m) (hb : b.Regular s Q' m)
  (hl : Include.SameLoading a.includes b.includes)
include h ha hb hl

theorem MergeOf.joined {hops : List String} (hj : Include.Joined s false m a.includes hops ∨
    Include.Joined s false m b.includes hops) : Include.Joined s false m p.includes hops := by
  rw [h.includes]
  exact Include.joined_requireAll (Include.forest_mergeAll ha.includes hb.includes h.merged)
    (Include.joined_mergeAll ha.includes hb.includes h.merged hl hj)

/-- What led through joined nodes of a side leads through joined nodes of the merge. -/
theorem MergeOf.throughJoins (hta : a.ThroughJoins s m) (htb : b.ThroughJoins s m) :
    p.ThroughJoins s m := by
  refine ⟨fun f hf => ?_, fun e he hops model column ht => ?_⟩
  · rw [h.filter] at hf
    refine .merge? (fun f hf => (hta.filter f hf).mono fun hops hh => ?_)
      (fun f hf => (htb.filter f hf).mono fun hops hh => ?_) hf
    · exact h.joined ha hb hl (.inl hh)
    · exact h.joined ha hb hl (.inr hh)
  · rcases h.order_eq with heq | heq
    · exact h.joined ha hb hl (.inl (hta.order e (heq ▸ he) hops model column ht))
    · exact h.joined ha hb hl (.inr (htb.order e (heq ▸ he) hops model column ht))

theorem MergeOf.includesThroughJoins (hia : a.IncludesThroughJoins s m)
    (hib : b.IncludesThroughJoins s m) : p.IncludesThroughJoins s m := by
  unfold IncludesThroughJoins
  rw [h.includes]
  exact Include.reads_requireAll (Include.forest_mergeAll ha.includes hb.includes h.merged)
    (Include.reads_mergeAll ha.includes hb.includes h.merged hl hia hib)

end

/-- If two lists on one model load alike the includes that both have, then the filter and the order
of their merge lead through joined nodes. If the filters of the includes of both do so too, so do
those of the merge, and it is executable. -/
theorem executable_of_merge {c : Config} {model : String} {fieldA fieldB : Field}
    {infoA infoB : ExecutionInfo} (hs : Schema.build c = .ok s)
    (ha : Query.rootList s model fieldA infoA = .ok a)
    (hb : Query.rootList s model fieldB infoB = .ok b)
    (hl : Include.SameLoading a.includes b.includes) (h : merge a b = .ok p) :
    ∃ m, s.model p.model = .ok m ∧ p.ThroughJoins s m ∧
      (a.IncludesThroughJoins s m → b.IncludesThroughJoins s m →
        p.IncludesThroughJoins s m ∧ p.Executable s m) := by
  have hplanned : Planned s p := .merge (.rootList ha) (.rootList hb) h
  obtain ⟨selection, hsel, -⟩ := bind_eq_ok.mp ha
  obtain ⟨m, hm, -⟩ := bind_eq_ok.mp hsel
  have hclosed := Include.filterClosed_true s
  have hra := Query.regular_rootList hclosed hm ha
  have hrb := Query.regular_rootList hclosed hm hb
  obtain ⟨includes, hmerge⟩ := mergeOf_of_merge h
  have hmodel : s.model p.model = .ok m := hmerge.model ▸ hra.model
  have hthrough := hmerge.throughJoins hra hrb hl (throughJoins_rootList hm ha)
    (throughJoins_rootList hm hb)
  refine ⟨m, hmodel, hthrough, fun hia hib => ?_⟩
  have hi := hmerge.includesThroughJoins hra hrb hl hia hib
  obtain ⟨_, hwritable⟩ := hplanned.writable (Schema.sound_of_build hs)
  exact ⟨hi, hthrough.executable hi hmodel hwritable.exists_statement⟩

end Plan

/-! ### Orders whose customer is in one country -/

def whoseCustomer : Document := .obj [("customer__country", .str "NZ")]

def customerIsIn : Filter :=
  .comparison ⟨⟨["customer"], "country", []⟩, .eq, .plain (.str "NZ"), some .string, false⟩

def whoseCustomerPlan : Plan where
  model := "Order"
  attributes := [.column "id"]
  includes := [{ target := "Customer", name := "customer", kind := .belongsTo }]
  filter := some customerIsIn

theorem compile_whoseCustomer :
    Filter.compile shopSchema "Order" whoseCustomer = .ok customerIsIn := by
  simp only [whoseCustomer, Filter.compile, Filter.compileValue, Filter.compileFields]
  rfl

theorem rootList_whoseCustomer : Query.rootList shopSchema "Order" ordersWhere
    { bindings := [("condition", whoseCustomer)] } = .ok whoseCustomerPlan := by
  change (do
    let fs ← (fun f => [f]) <$> Filter.compile shopSchema "Order" whoseCustomer
    Plan.compose shopSchema ⟨"Order", ["id"], ["id"], []⟩ (Filter.all (fs ++ [])).proper?
      { filter := some whoseCustomer }) = _
  rw [compile_whoseCustomer]
  rfl

theorem sameLoading_whoseCustomer : Include.SameLoading whoseCustomerPlan.includes
    (customerPlan (customerNode countryIs [])).includes := by
  intro hops a b ha hb
  obtain ⟨a, ha', rfl⟩ := Option.map_eq_some_iff.mp ha
  obtain ⟨b, hb', rfl⟩ := Option.map_eq_some_iff.mp hb
  cases Include.eq_of_nodeAt?_singleton rfl ha'
  cases Include.eq_of_nodeAt?_singleton rfl hb'
  rfl

theorem whoseCustomer_merge_executable : ∃ p m,
    Plan.merge whoseCustomerPlan (customerPlan (customerNode countryIs [])) = .ok p ∧
    shopSchema.model p.model = .ok m ∧ p.ThroughJoins shopSchema m ∧
    p.IncludesThroughJoins shopSchema m ∧ p.Executable shopSchema m := by
  obtain ⟨m, hm, hthrough, h⟩ := Plan.executable_of_merge build_shop rootList_whoseCustomer
    rootList_inCountry sameLoading_whoseCustomer rfl
  refine ⟨_, m, rfl, hm, hthrough, h ?_ ?_⟩
  · refine Plan.includesThroughJoins_rootList rootList_whoseCustomer rfl (fun hops n f hn => ?_) hm
    rcases hops with _ | ⟨_, _ | ⟨_, _⟩⟩ <;> cases hn
  · exact Plan.includesThroughJoins_rootList rootList_inCountry plan_inCountry
      localFilters_inCountry hm

/-- A page of the customer of each order. -/
def firstCustomers : Field where
  name := "orders"
  selections := [.field "customer" none
    [("query", .object [("limit", .scalar (.num (.int 1 (by decide) (by decide))))])]
    [.field "country" none [] []]]

def firstCustomersPlan : Plan := customerPlan {
  target := "Customer"
  name := "customer"
  kind := .belongsTo
  attributes := ["country"]
  limit := some 1
  separate := true }

theorem rootList_firstCustomers :
    Query.rootList shopSchema "Order" firstCustomers {} = .ok firstCustomersPlan := by
  rfl

/-- The customer is joined by one list and loaded separately by the other; in their merge it is
loaded separately, and the condition names a table that is not there. -/
theorem firstCustomers_merge_not_executable : Schema.build shop = .ok shopSchema ∧ ∃ a b p q,
    Query.rootList shopSchema "Order" ordersWhere { bindings := [("condition", whoseCustomer)] } =
      .ok a ∧
    Query.rootList shopSchema "Order" firstCustomers {} = .ok b ∧ Plan.merge a b = .ok p ∧
    ¬p.ThroughJoins shopSchema orderModel ∧ p.select shopSchema = .ok q ∧
    ¬q.InScope shopSchema := by
  refine ⟨build_shop, _, _, _, _, rootList_whoseCustomer, rootList_firstCustomers, rfl,
    fun h => ?_, rfl, fun h => ?_⟩
  · cases h.filter _ rfl _ (List.mem_singleton_self _) with
    | comparison hj =>
      cases hj with
      | cons hf hfind hs =>
        cases List.mem_singleton.mp (List.mem_of_find?_eq_some hfind)
        cases hs
  · have hsub := (h.condition _ rfl).tables_subset
    have hmem : "Order->customer" ∈ ["Order"] := hsub (by decide)
    exact absurd hmem (by decide)

end RelQuery

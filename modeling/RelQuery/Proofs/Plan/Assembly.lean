import RelQuery.Proofs.Include.Through
import RelQuery.Proofs.Plan.Regular

/-!
# The nodes of a query before its page

What the arguments of a query put together before it is cut to a page and lowered: its filter, its
order, and the nodes of the selection with those that filter, excluded associations and order lead
through. The limit and the offset do not matter to them.
-/

namespace RelQuery

open RelQuery.Filter (GoesAlong)

variable {s : Schema} {Q : Model → Filter → Prop} {m : Model} {p : Plan} {selection : PartialPlan}
  {args : Arguments} {ns ns' : List Include} {fields hops : List String}

/-! ## Orders -/

namespace Plan

/-- An order by a column of a model leads along these hops. -/
def OrdersAlong (order : List OrderEntry) (hops : List String) : Prop :=
  ∃ e ∈ order, ∃ model column, e.target = .column hops model column

variable {order entries : List OrderEntry} {orders : List (String × Direction)}
  {filter : Option Filter}

/-- A page pins the paths of the filter and of the order. -/
theorem mem_pinnedPaths :
    hops ∈ pinnedPaths filter order ↔ GoesAlong filter hops ∨ OrdersAlong order hops := by
  unfold pinnedPaths
  rw [List.mem_append, List.mem_filterMap]
  refine or_congr ?_ (exists_congr fun e => and_congr_right fun _ => ?_)
  · cases filter with
    | none => exact iff_of_false List.not_mem_nil Filter.not_goesAlong_none
    | some f => rw [Filter.goesAlong_some, List.mem_map]
  · cases e.target with
    | column hops' model column => simp [eq_comm]
    | expression sql => simp

theorem ordersAlong_orderOf (hne : hops ≠ []) :
    OrdersAlong (orderOf m args order) hops ↔ OrdersAlong order hops := by
  unfold orderOf
  split
  · rename_i h
    have horder : order = [] := by simpa using (Bool.and_eq_true_iff.mp h).2
    subst horder
    refine iff_of_false ?_ (fun ⟨e, he, _⟩ => nomatch he)
    rintro ⟨e, he, model, column, ht⟩
    obtain ⟨key, -, rfl⟩ := List.mem_map.mp he
    cases ht
    exact hne rfl
  · rfl

theorem extends_attachOrder {e : OrderEntry} (hns : Include.Forest s Q m ns)
    (h : attachOrder s m ns e = .ok ns') :
    Include.Extends (OrdersAlong [e]) ns ns' ∧ Include.Forest s Q m ns' := by
  unfold attachOrder at h
  split at h
  · rename_i hops model column ht
    refine ⟨(Include.extends_ensurePath hns h).mono ?_, hns.ensurePath h⟩
    rintro _ rfl
    exact ⟨e, List.mem_cons_self, model, column, ht⟩
  · cases h
    exact ⟨.refl _, hns⟩

theorem extends_foldlM_attachOrder (hns : Include.Forest s Q m ns)
    (h : entries.foldlM (attachOrder s m) ns = .ok ns') :
    Include.Extends (OrdersAlong entries) ns ns' ∧ Include.Forest s Q m ns' := by
  induction entries generalizing ns with
  | nil =>
    cases h
    exact ⟨.refl _, hns⟩
  | cons e entries ih =>
    obtain ⟨ns₁, h₁, h⟩ := bind_eq_ok.mp h
    obtain ⟨hfirst, hns₁⟩ := extends_attachOrder hns h₁
    obtain ⟨hext, hns'⟩ := ih hns₁ h
    refine ⟨(hfirst.mono ?_).trans (hext.mono ?_), hns'⟩
    · rintro hops ⟨e', he', ht⟩
      cases List.mem_singleton.mp he'
      exact ⟨e, List.mem_cons_self, ht⟩
    · rintro hops ⟨e', he', ht⟩
      exact ⟨e', List.mem_cons_of_mem _ he', ht⟩

theorem extends_attachOrders (hns : Include.Forest s Q m ns)
    (h : attachOrders s m orders ns = .ok (entries, ns')) :
    Include.Extends (OrdersAlong entries) ns ns' := by
  induction orders generalizing ns entries with
  | nil =>
    cases h
    exact .refl _
  | cons order orders ih =>
    obtain ⟨es, -, h⟩ := bind_eq_ok.mp h
    obtain ⟨ns₁, h₁, h⟩ := bind_eq_ok.mp h
    obtain ⟨⟨later, ns₂⟩, h₂, h⟩ := bind_eq_ok.mp h
    cases h
    obtain ⟨hext, hns₁⟩ := extends_foldlM_attachOrder hns h₁
    refine (hext.mono ?_).trans ((ih hns₁ h₂).mono ?_)
    · rintro hops ⟨e, he, ht⟩
      exact ⟨e, List.mem_append_left _ he, ht⟩
    · rintro hops ⟨e, he, ht⟩
      exact ⟨e, List.mem_append_right _ he, ht⟩

end Plan

namespace Query

open Plan (OrdersAlong startNodes pageNodes orderOf attachOrders)

/-! ## Conditions -/

/-- The filter of a query, or an association that its rows must have nothing of, leads along these
hops. -/
def Asks (s : Schema) (m : Model) (args : Arguments) (hops : List String) : Prop :=
  (∃ value f, args.filter = some value ∧ Filter.compile s m.name value = .ok f ∧
    GoesAlong (some f) hops) ∨
  ∃ field ∈ args.without, ∃ assoc, m.associationForField? field = some assoc ∧
    hops = [assoc.name]

/-- The filter, an excluded association or the order leads through the end of a path. -/
def Leads (s : Schema) (m : Model) (args : Arguments) (order : List OrderEntry)
    (path : List String) : Prop :=
  ∃ hops, (Asks s m args hops ∨ OrdersAlong order hops) ∧ path <+: hops

/-- The keys of groups that order a plan are its own columns. -/
theorem leads_orderOf {order : List OrderEntry} {path : List String} (hne : path ≠ []) :
    Leads s m args (orderOf m args order) path ↔ Leads s m args order path := by
  refine exists_congr fun hops => and_congr_left fun hpath => ?_
  have hhops : hops ≠ [] := fun hnil => hne (List.prefix_nil.mp (hnil ▸ hpath))
  rw [Plan.ordersAlong_orderOf hhops]

theorem exclude_cons_eq_ok {field : String} {fs : List Filter}
    (h : exclude s m (field :: fields) ns = .ok (fs, ns')) : ∃ assoc target ns₁ fs₁,
      m.associationForField? field = some assoc ∧ s.targetOf assoc = .ok target ∧
      Include.ensurePath s false [assoc.name] m ns = .ok ns₁ ∧
      exclude s m fields ns₁ = .ok (fs₁, ns') ∧ fs = lacks assoc target :: fs₁ := by
  obtain ⟨assoc, hassoc, h⟩ := bind_eq_ok.mp h
  obtain ⟨target, ht, h⟩ := bind_eq_ok.mp h
  obtain ⟨ns₁, h₁, h⟩ := bind_eq_ok.mp h
  obtain ⟨⟨fs₁, ns₂⟩, h₂, h⟩ := bind_eq_ok.mp h
  cases h
  unfold requireField at hassoc
  split at hassoc
  · cases hassoc
    exact ⟨assoc, target, ns₁, fs₁, ‹_›, ht, h₁, h₂, rfl⟩
  · cases hassoc

/-- The conditions lead along the associations that they exclude. -/
theorem goesAlong_exclude {fs : List Filter} (h : exclude s m fields ns = .ok (fs, ns')) :
    (∃ f ∈ fs, GoesAlong (some f) hops) ↔ ∃ field ∈ fields, ∃ assoc,
      m.associationForField? field = some assoc ∧ hops = [assoc.name] := by
  induction fields generalizing ns fs with
  | nil =>
    cases h
    simp
  | cons field fields ih =>
    obtain ⟨assoc, target, ns₁, fs₁, hassoc, -, -, h₂, rfl⟩ := exclude_cons_eq_ok h
    have hlacks : GoesAlong (some (lacks assoc target)) hops ↔ hops = [assoc.name] := by
      rw [Filter.goesAlong_some]
      simp [lacks, Filter.paths, eq_comm]
    rw [List.exists_mem_cons_iff, List.exists_mem_cons_iff, ih h₂, hlacks, hassoc]
    simp

theorem extends_exclude {fs : List Filter} (hns : Include.Forest s Q m ns)
    (h : exclude s m fields ns = .ok (fs, ns')) :
    Include.Extends (fun hops => ∃ field ∈ fields, ∃ assoc,
      m.associationForField? field = some assoc ∧ hops = [assoc.name]) ns ns' := by
  induction fields generalizing ns fs with
  | nil =>
    cases h
    exact .refl _
  | cons field fields ih =>
    obtain ⟨assoc, target, ns₁, fs₁, hassoc, -, h₁, h₂, -⟩ := exclude_cons_eq_ok h
    refine ((Include.extends_ensurePath hns h₁).mono ?_).trans
      ((ih (hns.ensurePath h₁) h₂).mono ?_)
    · rintro _ rfl
      exact ⟨field, List.mem_cons_self, assoc, hassoc, rfl⟩
    · rintro hops ⟨field', hfield', hassoc'⟩
      exact ⟨field', List.mem_cons_of_mem _ hfield', hassoc'⟩

/-! ## Assemblies -/

/-- What a query puts together before it is cut to a page and lowered. -/
structure Assembly where
  filter : Option Filter
  order : List OrderEntry
  nodes : List Include

/-- The filter that is asked for, if there is one. -/
def asked (s : Schema) (m : Model) (args : Arguments) : Except PlanError (List Filter) :=
  match args.filter with
  | some value => (fun f => [f]) <$> Filter.compile s m.name value
  | none => .ok []

/-- The nodes with all that a filter needs, if there is one. -/
def attach (s : Schema) (m : Model) (filter : Option Filter) (nodes : List Include) :
    Except PlanError (List Include) :=
  match filter with
  | some f => Include.attachFilter s m f nodes
  | none => .ok nodes

theorem extends_attach {filter : Option Filter} (hns : Include.Forest s Q m ns)
    (h : attach s m filter ns = .ok ns') :
    Include.Forest s Q m ns' ∧ Include.Extends (GoesAlong filter) ns ns' := by
  unfold attach at h
  split at h
  · exact ⟨hns.attachFilter h, Include.extends_attachFilter hns h⟩
  · cases h
    exact ⟨hns, .refl _⟩

theorem joined_attach {filter : Option Filter} (h : attach s m filter ns = .ok ns')
    (hgoes : GoesAlong filter hops) : Include.Joined s false m ns' hops := by
  obtain ⟨path, negated, rfl, f, rfl, l, hl, hr⟩ := hgoes
  exact (Include.joined_attachFilter h hl hr).outer

def assemble (s : Schema) (m : Model) (selection : PartialPlan) (args : Arguments) :
    Except PlanError Assembly := do
  let filters ← asked s m args
  let (conditions, includes) ← exclude s m args.without selection.includes
  let filter := (Filter.all (filters ++ conditions)).proper?
  let nodes ← attach s m filter (startNodes { selection with includes } args)
  let (order, nodes) ← attachOrders s m args.order nodes
  return { filter, order, nodes }

/-- The filter of a plan on `m`, if there is one, as the statement has it. -/
def lowerFilter (s : Schema) (m : Model) (filter : Option Filter) :
    Except PlanError (Option Filter) :=
  match filter with
  | some f => some <$> f.lower s m m.name
  | none => .ok none

theorem goesAlong_asked {filters : List Filter} (h : asked s m args = .ok filters) :
    (∃ f ∈ filters, GoesAlong (some f) hops) ↔ ∃ value f, args.filter = some value ∧
      Filter.compile s m.name value = .ok f ∧ GoesAlong (some f) hops := by
  unfold asked at h
  split at h
  · rename_i value hvalue
    obtain ⟨f, hf, rfl⟩ := map_eq_ok.mp h
    simp [hvalue, hf]
  · rename_i hnone
    cases h
    simp [hnone]

theorem assemble_eq_ok {a : Assembly} (h : assemble s m selection args = .ok a) :
    ∃ filters conditions includes nodes, asked s m args = .ok filters ∧
      exclude s m args.without selection.includes = .ok (conditions, includes) ∧
      a.filter = (Filter.all (filters ++ conditions)).proper? ∧
      attach s m a.filter (startNodes { selection with includes } args) = .ok nodes ∧
      attachOrders s m args.order nodes = .ok (a.order, a.nodes) := by
  obtain ⟨filters, hfilters, h⟩ := bind_eq_ok.mp h
  obtain ⟨⟨conditions, includes⟩, hex, h⟩ := bind_eq_ok.mp h
  obtain ⟨nodes, hnodes, h⟩ := bind_eq_ok.mp h
  obtain ⟨⟨order, nodes'⟩, horder, h⟩ := bind_eq_ok.mp h
  cases h
  exact ⟨filters, conditions, includes, nodes, hfilters, hex, rfl, hnodes, horder⟩

theorem applyArguments_eq : applyArguments s selection args =
    s.model selection.model >>= fun m =>
    asked s m args >>= fun filters =>
    exclude s m args.without selection.includes >>= fun (conditions, includes) =>
    Plan.compose s { selection with includes } (Filter.all (filters ++ conditions)).proper?
      args := by
  unfold applyArguments asked
  cases args.filter <;> simp

/-- A plan is what was assembled for it, cut to a page and lowered. -/
theorem exists_assembly (h : applyArguments s selection args = .ok p)
    (hm : s.model selection.model = .ok m) : ∃ a, assemble s m selection args = .ok a ∧
      Include.lowerAll s m m.name (pageNodes a.filter args a.order a.nodes) = .ok p.includes ∧
      (∃ lowered, lowerFilter s m a.filter = .ok lowered ∧
        p.filter = lowered.bind (·.proper?)) ∧
      p.order = orderOf m args a.order ∧ p.limit = args.limit ∧ p.offset = args.offset := by
  rw [applyArguments_eq] at h
  obtain ⟨n, hn, h⟩ := bind_eq_ok.mp h
  cases hm.symm.trans hn
  obtain ⟨filters, hfilters, h⟩ := bind_eq_ok.mp h
  obtain ⟨⟨conditions, includes⟩, hex, h⟩ := bind_eq_ok.mp h
  obtain ⟨c⟩ := Plan.composition h
  cases hm.symm.trans c.model_eq
  refine ⟨⟨(Filter.all (filters ++ conditions)).proper?, c.order, c.ordered⟩, ?_, ?_,
    ⟨c.lowered, c.lowered_eq, congrArg Plan.filter c.plan_eq⟩, congrArg Plan.order c.plan_eq,
    congrArg Plan.limit c.plan_eq, congrArg Plan.offset c.plan_eq⟩
  · have hfiltered : attach s c.m (Filter.all (filters ++ conditions)).proper?
        (startNodes { selection with includes } args) = .ok c.filtered := c.filtered_eq
    rw [assemble, hfilters, ok_bind, hex, ok_bind]
    dsimp only
    rw [hfiltered, ok_bind, c.ordered_eq]
    rfl
  · rw [c.includes_plan]
    exact c.includes_eq

namespace Assembly

variable {a : Assembly} (h : assemble s m selection args = .ok a)
include h

/-- The filter leads where the query asks. -/
theorem goesAlong_filter : GoesAlong a.filter hops ↔ Asks s m args hops := by
  obtain ⟨filters, conditions, includes, nodes, hfilters, hex, hfilter, -, -⟩ := assemble_eq_ok h
  rw [hfilter, Filter.goesAlong_proper?, Filter.goesAlong_all]
  simp only [List.mem_append, or_and_right, exists_or]
  rw [goesAlong_asked hfilters, goesAlong_exclude hex]
  rfl

/-- A page pins what leads through a path. -/
theorem pinned_iff {path : List String} :
    (∃ hops ∈ Plan.pinnedPaths a.filter a.order, path <+: hops) ↔
      Leads s m args a.order path := by
  refine exists_congr fun hops => and_congr_left fun _ => ?_
  rw [Plan.mem_pinnedPaths, goesAlong_filter h]

/-- The nodes form a forest, that of the selection extended along the paths of filter and order. -/
theorem extends_nodes (hns : Include.Forest s Q m selection.includes) :
    Include.Forest s Q m a.nodes ∧
      Include.Extends (fun hops => Asks s m args hops ∨ OrdersAlong a.order hops)
        (startNodes selection args) a.nodes := by
  obtain ⟨filters, conditions, includes, nodes, -, hex, -, hnodes, horder⟩ := assemble_eq_ok h
  obtain ⟨hstart, hstart_ext⟩ : Include.Forest s Q m (startNodes { selection with includes } args) ∧
      Include.Extends (Asks s m args) (startNodes selection args)
        (startNodes { selection with includes } args) := by
    unfold startNodes
    split
    · exact ⟨.nil, .refl _⟩
    · exact ⟨forest_exclude hex hns, (extends_exclude hns hex).mono fun _ => .inr⟩
  obtain ⟨hfiltered, hfiltered_ext⟩ := extends_attach hstart hnodes
  have hasks : Include.Extends (Asks s m args) (startNodes { selection with includes } args)
      nodes := hfiltered_ext.mono fun hops => (goesAlong_filter h).mp
  have horder_ext := Plan.extends_attachOrders hfiltered horder
  refine ⟨Plan.forest_attachOrders horder hfiltered, ?_⟩
  exact ((hstart_ext.trans hasks).mono fun _ => .inl).trans (horder_ext.mono fun _ => .inr)

theorem joined (hhops : Asks s m args hops ∨ OrdersAlong a.order hops) :
    Include.Joined s false m a.nodes hops := by
  obtain ⟨filters, conditions, includes, nodes, -, -, -, hnodes, horder⟩ := assemble_eq_ok h
  obtain ⟨horders, hkeep⟩ := Plan.joined_attachOrders horder
  rcases hhops with hasks | ⟨e, he, model, column, ht⟩
  · exact hkeep (joined_attach hnodes ((goesAlong_filter h).mpr hasks))
  · exact horders e he hops model column ht

end Assembly

/-! ## Finished plans -/

/-- A node of a finished plan: it may be separate now, and its filter is lowered. -/
def Finished (n n' : Include) : Prop :=
  ∃ filter separate, n' = { n with filter, separate } ∧ filter.isSome = n.filter.isSome ∧
    (n.separate = true → separate = true)

/-- A page is asked for of a list that is not grouped. -/
def OnPage (args : Arguments) : Prop := args.group = [] ∧ (args.limit.isSome ∨ args.offset.isSome)

theorem pageNodes_of_onPage {filter : Option Filter} {order : List OrderEntry}
    (h : OnPage args) : pageNodes filter args order ns =
      Plan.splitPageAll (Plan.pinnedPaths filter order) [] ns := by
  obtain ⟨hgroup, hpage⟩ := h
  unfold pageNodes
  simp [hgroup, hpage]

theorem pageNodes_of_not_onPage {filter : Option Filter} {order : List OrderEntry}
    (h : ¬OnPage args) : pageNodes filter args order ns = ns := by
  unfold pageNodes
  refine if_neg fun hpage => h ?_
  simpa [OnPage] using hpage

/-- A plan finishes what was assembled for it: nodes are where they were, and a path stays joined
unless a page cuts it. -/
structure Finishes (s : Schema) (m : Model) (args : Arguments) (a : Assembly) (p : Plan) :
    Prop where
  node : ∀ path, Option.Rel Finished (Include.bareAt? path a.nodes)
    (Include.bareAt? path p.includes)
  joined : ∀ hops, Include.JoinedAlong p.includes hops ↔ Include.JoinedAlong a.nodes hops ∧
    (OnPage args → ∀ path, path <+: hops → ∀ n, Include.bareAt? path a.nodes = some n →
      ¬Include.Cut (Plan.pinnedPaths a.filter a.order) path n)
  filter : ∃ lowered, lowerFilter s m a.filter = .ok lowered ∧
    p.filter = lowered.bind (·.proper?)
  order : p.order = orderOf m args a.order
  limit : p.limit = args.limit
  offset : p.offset = args.offset

theorem rel_finished {n? n₁? n₂? : Option Include} (hpaged : Option.Rel Include.Paged n? n₁?)
    (hlowered : Option.Rel Include.Lowered n₁? n₂?) : Option.Rel Finished n? n₂? := by
  cases hpaged with
  | none =>
    cases hlowered with
    | none => exact .none
  | some hn =>
    cases hlowered with
    | some hn' =>
      obtain ⟨separate, rfl, hseparate⟩ := hn
      obtain ⟨filter, rfl, hfilter⟩ := hn'
      exact .some ⟨filter, separate, rfl, hfilter, hseparate⟩

/-- Every plan finishes its assembly. -/
theorem exists_finishes (h : applyArguments s selection args = .ok p)
    (hm : s.model selection.model = .ok m) :
    ∃ a, assemble s m selection args = .ok a ∧ Finishes s m args a p := by
  obtain ⟨a, ha, hlower, hfilter, horder, hlimit, hoffset⟩ := exists_assembly h hm
  refine ⟨a, ha, fun path => ?_, fun hops => ?_, hfilter, horder, hlimit, hoffset⟩
  · refine rel_finished ?_ (Include.lowered_lowerAll hlower path)
    by_cases hpage : OnPage args
    · rw [pageNodes_of_onPage hpage]
      exact Include.paged_splitPageAll _ path [] a.nodes
    · rw [pageNodes_of_not_onPage hpage]
      exact Include.rel_paged_refl _
  · rw [Include.joinedAlong_lowerAll hlower]
    by_cases hpage : OnPage args
    · rw [pageNodes_of_onPage hpage, Include.joinedAlong_splitPageAll]
      simp [hpage]
    · rw [pageNodes_of_not_onPage hpage]
      simp [hpage]

namespace Finishes

variable (hfin : Finishes s m args a p)
include hfin

theorem exists_node {n' : Include} (h : Include.bareAt? path p.includes = some n') :
    ∃ n, Include.bareAt? path a.nodes = some n ∧ Finished n n' := by
  have hnode := hfin.node path
  rw [h] at hnode
  generalize Include.bareAt? path a.nodes = n? at hnode
  cases hnode with
  | some hn => exact ⟨_, rfl, hn⟩

theorem exists_finished {n : Include} (h : Include.bareAt? path a.nodes = some n) :
    ∃ n', Include.bareAt? path p.includes = some n' ∧ Finished n n' := by
  have hnode := hfin.node path
  rw [h] at hnode
  generalize Include.bareAt? path p.includes = n? at hnode
  cases hnode with
  | some hn => exact ⟨_, rfl, hn⟩

end Finishes

/-! ## Lists and counts -/

/-- What is known of the nodes that were assembled. -/
structure Assembled (s : Schema) (m : Model) (selection : PartialPlan) (args : Arguments)
    (a : Assembly) : Prop where
  eq : assemble s m selection args = .ok a
  start : Include.Accounted (startNodes selection args)
  forest : Include.Forest s (fun _ _ => True) m a.nodes
  extends_nodes : Include.Extends (fun hops => Asks s m args hops ∨ OrdersAlong a.order hops)
    (startNodes selection args) a.nodes

theorem assembled {a : Assembly} (h : assemble s m selection args = .ok a)
    (hns : Include.Forest s (fun _ _ => True) m selection.includes)
    (hacc : Include.Accounted selection.includes) : Assembled s m selection args a := by
  obtain ⟨hnodes, hext⟩ := Assembly.extends_nodes h hns
  refine ⟨h, ?_, hnodes, hext⟩
  unfold startNodes
  split
  · exact Include.accounted_nil
  · exact hacc

/-- What leads through a path runs through joined nodes. -/
theorem Assembled.joined_of_leads {a : Assembly} {path : List String}
    (ha : Assembled s m selection args a) (h : Leads s m args a.order path) :
    Include.JoinedAlong a.nodes path := by
  obtain ⟨hops, hhops, hpath⟩ := h
  have hj := ((Include.joined_iff ha.forest).mp (Assembly.joined ha.eq hhops)).2
  exact fun above hne habove => hj above hne (habove.trans hpath)

variable {model : String} {field : Field} {info : ExecutionInfo}

/-- The list of a field is its selection, with what its arguments add. -/
theorem exists_assembled (hm : s.model model = .ok m)
    (hsel : Include.plan s info model field.selections none [] = .ok selection)
    (hargs : argumentsOf field info = .ok args) (h : rootList s model field info = .ok p) :
    ∃ a, Assembled s m selection args a ∧ Finishes s m args a p := by
  obtain ⟨sel, hsel', h⟩ := bind_eq_ok.mp h
  cases hsel.symm.trans hsel'
  obtain ⟨args', hargs', h⟩ := bind_eq_ok.mp h
  cases hargs.symm.trans hargs'
  obtain ⟨a, ha, hfin⟩ := exists_finishes h (Include.model_of_plan hm hsel)
  have hns : Include.Forest s (fun _ _ => True) m selection.includes :=
    Include.forest_of_plan (Include.filterClosed_true s).toFilterBuilt hm hsel
  exact ⟨a, assembled ha hns (Include.accounted_of_plan hsel), hfin⟩

/-- The arguments that matter to a count. -/
def countArguments (args : Arguments) : Arguments :=
  { filter := args.filter, without := args.without }

/-- A count has the filter of the list, and the nodes that this asks for. -/
theorem exists_assembled_count (hm : s.model model = .ok m)
    (hargs : argumentsOf field info = .ok args) (h : count s model field info = .ok p) :
    ∃ a, Assembled s m { model := m.name } (countArguments args) a ∧
      Finishes s m (countArguments args) a p := by
  obtain ⟨n, hn, h⟩ := bind_eq_ok.mp h
  cases hm.symm.trans hn
  obtain ⟨args', hargs', h⟩ := bind_eq_ok.mp h
  cases hargs.symm.trans hargs'
  obtain ⟨p, hp, h⟩ := bind_eq_ok.mp h
  cases h
  obtain ⟨a, ha, hfin⟩ := exists_finishes hp (Schema.model_name hm)
  exact ⟨a, assembled ha .nil Include.accounted_nil,
    hfin.node, hfin.joined, hfin.filter, hfin.order, hfin.limit, hfin.offset⟩

/-- The conditions of excluded associations do not depend on the nodes. -/
theorem conditions_of_exclude {fs fs' : List Filter} {ns₁ ns₁' : List Include}
    (h : exclude s m fields ns = .ok (fs, ns₁)) (h' : exclude s m fields ns' = .ok (fs', ns₁')) :
    fs = fs' := by
  induction fields generalizing ns ns' fs fs' with
  | nil =>
    cases h
    cases h'
    rfl
  | cons field fields ih =>
    obtain ⟨assoc, target, ns₂, fs₂, hassoc, ht, -, h₂, rfl⟩ := exclude_cons_eq_ok h
    obtain ⟨assoc', target', ns₂', fs₂', hassoc', ht', -, h₂', rfl⟩ := exclude_cons_eq_ok h'
    cases hassoc.symm.trans hassoc'
    cases ht.symm.trans ht'
    rw [ih h₂ h₂']

theorem filter_count {sel : PartialPlan} {a a' : Assembly}
    (h : assemble s m selection args = .ok a)
    (h' : assemble s m sel (countArguments args) = .ok a') : a'.filter = a.filter := by
  obtain ⟨filters, conditions, includes, nodes, hfilters, hex, hfilter, -, -⟩ := assemble_eq_ok h
  obtain ⟨filters', conditions', includes', nodes', hfilters', hex', hfilter', -, -⟩ :=
    assemble_eq_ok h'
  have hasked : asked s m (countArguments args) = asked s m args := rfl
  cases (hasked.symm.trans hfilters').symm.trans hfilters
  cases conditions_of_exclude hex' hex
  rw [hfilter, hfilter']

end Query

end RelQuery

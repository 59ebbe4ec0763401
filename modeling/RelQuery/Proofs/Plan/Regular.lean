import RelQuery.Proofs.Include.Nodes
import RelQuery.Proofs.Plan.Negated
import RelQuery.Proofs.Plan.Planned

/-!
# Every plan is regular

The includes of every plan are a forest on its model, and its filters have whatever property all
filters have that are built as queries build them.
-/

namespace RelQuery

open Include (Forest FilterBuilt FilterClosed)

variable {s : Schema} {Q : Model → Filter → Prop} {m : Model} {a b p : Plan} {f : Filter}
  {ns ns' : List Include}

/-- A plan on `m` whose includes are a forest and whose filters have a property. -/
structure Plan.Regular (s : Schema) (Q : Model → Filter → Prop) (m : Model) (p : Plan) :
    Prop where
  model : s.model p.model = .ok m
  includes : Forest s Q m p.includes
  filter : ∀ f, p.filter = some f → Q m f

/-! ## Compositions -/

namespace Plan

theorem forest_attachOrders {orders : List (String × Direction)} {entries : List OrderEntry}
    (h : attachOrders s m orders ns = .ok (entries, ns')) (hns : Forest s Q m ns) :
    Forest s Q m ns' :=
  attachOrders_preserves (P := Forest s Q m) (fun _ _ _ _ hns h => hns.ensurePath h) h hns

variable {selection : PartialPlan} {filter : Option Filter} {args : Arguments}

theorem Composition.forest_ordered (c : Composition s selection filter args p)
    (h : Forest s Q c.m selection.includes) : Forest s Q c.m c.ordered := by
  have hstart : Forest s Q c.m (startNodes selection args) := by
    unfold startNodes
    split
    · exact .nil
    · exact h
  exact c.preserves (P := Forest s Q c.m) (fun _ _ _ _ hns h => hns.ensurePath h) hstart

theorem forest_pageNodes {order : List OrderEntry} (h : Forest s Q m ns) :
    Forest s Q m (pageNodes filter args order ns) := by
  unfold pageNodes
  split
  · exact h.splitPageAll
  · exact h

theorem Composition.includes_plan (c : Composition s selection filter args p) :
    p.includes = c.includes :=
  congrArg Plan.includes c.plan_eq

theorem Composition.regular (hQ : FilterClosed s Q) (c : Composition s selection filter args p)
    (h : Forest s Q c.m selection.includes) (hfilter : ∀ f, filter = some f → Q c.m f) :
    p.Regular s Q c.m := by
  refine ⟨c.plan_model, ?_, fun g hg => ?_⟩
  · rw [c.includes_plan]
    exact (forest_pageNodes (c.forest_ordered h)).lowerAll hQ.lower c.includes_eq
  · obtain ⟨f, hf, hg⟩ := c.lower_eq hg
    exact hQ.lower (hfilter f hf) hg

end Plan

/-! ## Queries -/

namespace Query

/-- Every condition is that of an excluded association. -/
theorem lacks_of_exclude {fields : List String} {fs : List Filter}
    (h : exclude s m fields ns = .ok (fs, ns')) : ∀ f ∈ fs, ∃ assoc target,
      s.follow m assoc.name = .ok (assoc, target) ∧ f = lacks assoc target := by
  induction fields generalizing ns fs with
  | nil =>
    cases h
    exact List.forall_mem_nil _
  | cons field fields ih =>
    obtain ⟨assoc, hassoc, h⟩ := bind_eq_ok.mp h
    obtain ⟨target, ht, h⟩ := bind_eq_ok.mp h
    obtain ⟨ns₁, h₁, h⟩ := bind_eq_ok.mp h
    obtain ⟨⟨fs₁, ns₂⟩, h₂, h⟩ := bind_eq_ok.mp h
    cases h
    exact List.forall_mem_cons.mpr ⟨⟨assoc, target,
      Schema.follow_of_field (requireField_eq_ok.mp hassoc) ht, rfl⟩, ih h₂⟩

theorem forest_exclude {fields : List String} {fs : List Filter}
    (h : exclude s m fields ns = .ok (fs, ns')) (hns : Forest s Q m ns) : Forest s Q m ns' := by
  induction fields generalizing ns fs with
  | nil =>
    cases h
    exact hns
  | cons field fields ih =>
    obtain ⟨assoc, -, h⟩ := bind_eq_ok.mp h
    obtain ⟨target, -, h⟩ := bind_eq_ok.mp h
    obtain ⟨ns₁, h₁, h⟩ := bind_eq_ok.mp h
    obtain ⟨⟨fs₁, ns₂⟩, h₂, h⟩ := bind_eq_ok.mp h
    cases h
    exact ih h₂ (hns.ensurePath h₁)

/-- The condition of a query has every property that filters are built with. -/
theorem condition_of_applyArguments {value? : Option Document} {filter conditions : List Filter}
    {fields : List String} (hQ : FilterBuilt s Q) (hm : s.model m.name = .ok m)
    (hfilter : ∀ f ∈ filter, ∃ value, value? = some value ∧
      Filter.compile s m.name value = .ok f)
    (hex : exclude s m fields ns = .ok (conditions, ns'))
    (hf : (Filter.all (filter ++ conditions)).proper? = some f) : Q m f := by
  cases Filter.proper?_eq_some hf
  refine hQ.all (List.forall_mem_append.mpr ⟨fun f hf => ?_, fun f hf => ?_⟩)
  · obtain ⟨value, -, hcompile⟩ := hfilter f hf
    exact hQ.compile hm hcompile
  · obtain ⟨assoc, target, hfollow, rfl⟩ := lacks_of_exclude hex f hf
    exact hQ.lacks hfollow

end Query

section
variable (hQ : FilterClosed s Q)
include hQ

namespace Query

theorem regular_applyArguments {selection : PartialPlan} {args : Arguments}
    (h : applyArguments s selection args = .ok p) (hm : s.model selection.model = .ok m)
    (hsel : Forest s Q m selection.includes) : p.Regular s Q m := by
  obtain ⟨n, filter, conditions, ns, hn, hfilter, hex, h⟩ := applyArguments_eq_ok h
  cases hm.symm.trans hn
  obtain ⟨c⟩ := Plan.composition h
  cases hm.symm.trans c.model_eq
  exact c.regular hQ (forest_exclude hex hsel) fun f hf =>
    condition_of_applyArguments hQ.toFilterBuilt (Schema.model_name hm) hfilter hex hf

theorem regular_rootList {model : String} {field : Field} {info : ExecutionInfo}
    (hm : s.model model = .ok m) (h : rootList s model field info = .ok p) :
    p.Regular s Q m := by
  obtain ⟨selection, hsel, h⟩ := bind_eq_ok.mp h
  obtain ⟨args, -, h⟩ := bind_eq_ok.mp h
  exact regular_applyArguments hQ h (Include.model_of_plan hm hsel)
    (Include.forest_of_plan hQ.toFilterBuilt hm hsel)

theorem regular_count {model : String} {field : Field} {info : ExecutionInfo}
    (hm : s.model model = .ok m) (h : count s model field info = .ok p) : p.Regular s Q m := by
  obtain ⟨n, hn, h⟩ := bind_eq_ok.mp h
  cases hm.symm.trans hn
  obtain ⟨args, -, h⟩ := bind_eq_ok.mp h
  obtain ⟨p, hp, h⟩ := bind_eq_ok.mp h
  cases h
  have hr : p.Regular s Q m := regular_applyArguments hQ hp (Schema.model_name hm) .nil
  exact ⟨hr.model, hr.includes, hr.filter⟩

theorem regular_restrict (hp : p.Regular s Q m) (hf : Q m f) : (restrict p f).Regular s Q m := by
  refine ⟨hp.model, hp.includes, fun g hg => ?_⟩
  cases hg
  refine hQ.all (List.forall_mem_append.mpr ⟨fun g hg => ?_, List.forall_mem_singleton.mpr hf⟩)
  exact hp.filter g (Option.mem_toList.mp hg)

theorem regular_correlation {assoc : Association} {target : Model} {key : Document}
    (ht : s.model target.name = .ok target) (h : correlation s assoc target key = .ok f) :
    Q target f := by
  unfold correlation at h
  split at h
  · obtain ⟨literal, -, h⟩ := bind_eq_ok.mp h
    cases h
    exact hQ.raw
  · exact hQ.compile ht h

theorem regular_associationList {model : String} {field : Field} {row : Document}
    {info : ExecutionInfo} (h : associationList s model field row info = .ok p) :
    ∃ m, p.Regular s Q m := by
  obtain ⟨_, _, t, _, e, q, -, -, ht, -, he, hq, rfl⟩ := associationList_eq_ok h
  have ht := Schema.model_name ht
  exact ⟨t, regular_restrict hQ (regular_rootList hQ ht hq) (regular_correlation hQ ht he)⟩

end Query

theorem Event.regular_changedList {model : String} {field : Field} {info : ExecutionInfo}
    {events : List Event} (h : changedList s model field info events = .ok (some p)) :
    ∃ m, p.Regular s Q m := by
  obtain ⟨_, m, e, q, -, hm, he, hq, rfl⟩ := changedList_eq_ok h
  rw [← Schema.name_of_model hm] at he
  exact ⟨m, Query.regular_restrict hQ (Query.regular_rootList hQ hm hq)
    (hQ.compile (Schema.model_name hm) he)⟩

/-! ## Merges -/

namespace Plan

omit hQ in
theorem requireNegated_eq {f? : Option Filter} :
    requireNegated f? ns = Include.requireAll (Filter.negatedPaths f?) ns := by
  cases f? <;> rfl

theorem Regular.merge {n : Model} (h : merge a b = .ok p) (ha : a.Regular s Q m)
    (hb : b.Regular s Q n) : p.Regular s Q m := by
  obtain ⟨hmodel, includes, group, order, limit, offset, hi, -, -, -, -, rfl⟩ := merge_eq_ok h
  cases (hmodel ▸ ha.model).symm.trans hb.model
  refine ⟨ha.model, ?_, Filter.forall_merge? hQ.merge ha.filter hb.filter⟩
  have hforest : Forest s Q m includes := .mergeAll hQ.merge hi ha.includes hb.includes
  rw [requireNegated_eq]
  exact hforest.requireAll

theorem Planned.regular (h : Planned s p) : ∃ m, p.Regular s Q m := by
  induction h with
  | rootList h =>
    obtain ⟨selection, hsel, -⟩ := bind_eq_ok.mp h
    obtain ⟨m, hm, -⟩ := bind_eq_ok.mp hsel
    exact ⟨m, Query.regular_rootList hQ hm h⟩
  | count h =>
    obtain ⟨m, hm, -⟩ := bind_eq_ok.mp h
    exact ⟨m, Query.regular_count hQ hm h⟩
  | associationList h => exact Query.regular_associationList hQ h
  | changedList h => exact Event.regular_changedList hQ h
  | merge _ _ h iha ihb =>
    obtain ⟨m, ha⟩ := iha
    obtain ⟨n, hb⟩ := ihb
    exact ⟨m, ha.merge hQ h hb⟩

end Plan

end

end RelQuery

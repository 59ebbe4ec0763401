import RelQuery.Proofs.Filter.Local
import RelQuery.Proofs.Include.Settled
import RelQuery.Proofs.Plan.Merging

/-!
# Merging a plan with itself

A plan merged with itself stays as it is if the nodes on its negated paths are inner joins already.
A composed plan is of that kind, and so is every merge. A condition that is added to a composed plan
must be local for that.
-/

namespace RelQuery

open Include (Forest FilterClosed)

/-- The keys on the targets of associations are not read as operators of a filter. -/
def Schema.PlainKeys (s : Schema) : Prop := ∀ m ∈ s.models, ∀ a ∈ m.associations,
  ∀ t ∈ s.models, t.name = a.target → Filter.operatorName? (a.childKey t) = none

instance (s : Schema) : Decidable s.PlainKeys := by
  unfold Schema.PlainKeys
  infer_instance

variable {s : Schema} {Q : Model → Filter → Prop} {m : Model} {a b p : Plan} {f : Filter}
  {hops : List String}

namespace Plan

theorem foldl_addItem_of_subset {items more : List SelectItem} (h : more ⊆ items) :
    more.foldl addItem items = items := by
  induction more with
  | nil => rfl
  | cons item more ih =>
    rw [List.cons_subset] at h
    have hitem : addItem items item = items := if_pos h.1
    rw [List.foldl_cons, hitem, ih h.2]

/-- The nodes on the negated paths of the filter are inner joins. -/
def Settled (p : Plan) : Prop :=
  ∀ hops ∈ Filter.negatedPaths p.filter, Include.requireHops hops p.includes = p.includes

theorem Settled.merge_self (h : p.Settled) (hp : p.Regular s Q m) : Plan.merge p p = .ok p := by
  have hi := Include.mergeAll_self hp.includes
  have hneg := Include.requireAll_self h
  unfold Plan.merge
  rw [if_neg (not_not.mpr rfl), hi]
  simp only [agree_self, ok_bind, Filter.merge?_self, requireNegated_eq, hneg, getD_given?,
    foldl_addItem_of_subset (List.Subset.refl p.attributes)]
  rfl

theorem settled_of_merge (h : merge a b = .ok p) : p.Settled := by
  obtain ⟨includes, hp⟩ := mergeOf_of_merge h
  intro hops hhops
  rw [hp.includes]
  exact Include.requireHops_of_mem hhops

/-! ## Compositions -/

variable {selection : PartialPlan} {filter : Option Filter} {args : Arguments}

/-- A leaf that is a comparison after lowering was one before. -/
theorem Composition.reaches (c : Composition s selection filter args p) {r : AttributePath × Bool}
    (h : Filter.OptionReaches p.filter r) : ∃ f, filter = some f ∧ f.Reaches r := by
  obtain ⟨g, hg, l, hl, hr⟩ := h
  obtain ⟨f, hf, hlower⟩ := c.lower_eq hg
  obtain ⟨k, hk, hkl⟩ := Filter.mem_leaves_lower hlower hl
  refine ⟨f, hf, k, hk, ?_⟩
  have hleaf := Filter.isLeaf_of_mem hk
  cases k with
  | comparison c =>
    cases hkl
    exact hr
  | raw sql =>
    cases hkl
    exact hr
  | computed c =>
    obtain ⟨t, -, hkl⟩ := bind_eq_ok.mp hkl
    cases hkl
    cases hr
  | _ => exact hleaf.elim

theorem Composition.settled (c : Composition s selection filter args p)
    (hp : p.Regular s Q c.m) : p.Settled := by
  intro hops hhops
  obtain ⟨-, path, rfl, hr⟩ := Filter.mem_negatedPaths.mp hhops
  obtain ⟨f, hf, l, hl, hr⟩ := c.reaches hr
  exact (c.pathsJoined.filter f hf l hl path true hr).requireHops hp.includes

end Plan

/-! ## Queries -/

open Plan (Settled)

namespace Query

theorem settled_applyArguments {selection : PartialPlan} {args : Arguments}
    (h : applyArguments s selection args = .ok p) (hp : p.Regular s Q m) : p.Settled := by
  obtain ⟨n, filter, conditions, ns, -, -, -, h⟩ := applyArguments_eq_ok h
  obtain ⟨c⟩ := Plan.composition h
  cases hp.model.symm.trans c.plan_model
  exact c.settled hp

theorem settled_rootList {model : String} {field : Field} {info : ExecutionInfo}
    (h : rootList s model field info = .ok p) (hp : p.Regular s Q m) : p.Settled := by
  obtain ⟨selection, -, h⟩ := bind_eq_ok.mp h
  obtain ⟨args, -, h⟩ := bind_eq_ok.mp h
  exact settled_applyArguments h hp

theorem settled_count {model : String} {field : Field} {info : ExecutionInfo}
    (h : count s model field info = .ok p) (hp : p.Regular s Q m) : p.Settled := by
  obtain ⟨n, -, h⟩ := bind_eq_ok.mp h
  obtain ⟨args, -, h⟩ := bind_eq_ok.mp h
  obtain ⟨plan, hplan, h⟩ := bind_eq_ok.mp h
  cases h
  have hsettled : plan.Settled :=
    settled_applyArguments (Q := Q) hplan ⟨hp.model, hp.includes, hp.filter⟩
  exact hsettled

/-- A local condition has no negated paths. -/
theorem settled_restrict (h : p.Settled) (hf : f.Local) : (restrict p f).Settled := by
  intro hops hhops
  obtain ⟨hne, path, rfl, g, hg, hr⟩ := Filter.mem_negatedPaths.mp hhops
  cases hg
  obtain ⟨g, hg, hr⟩ := Filter.reaches_combine.mp hr
  rcases List.mem_append.mp hg with hg | hg
  · exact h _ (Filter.mem_negatedPaths.mpr ⟨hne, path, rfl, g, Option.mem_toList.mp hg, hr⟩)
  · cases List.mem_singleton.mp hg
    exact (hne (hf path true hr)).elim

theorem local_correlation {assoc : Association} {target : Model} {key : Document}
    (ht : s.model target.name = .ok target)
    (hop : Filter.operatorName? (assoc.childKey target) = none)
    (hkey : assoc.childKey target ∈ target.attributeNames)
    (h : correlation s assoc target key = .ok f) : f.Local := by
  unfold correlation at h
  split at h
  · obtain ⟨literal, -, h⟩ := bind_eq_ok.mp h
    cases h
    exact .raw
  · exact Filter.local_of_compile ht hop hkey h

theorem settled_associationList {c : Config} (hs : Schema.build c = .ok s) (hkeys : s.PlainKeys)
    {model : String} {field : Field} {row : Document} {info : ExecutionInfo}
    (h : associationList s model field row info = .ok p) : p.Settled := by
  obtain ⟨parent, assoc, t, _, e, q, hparent, hassoc, ht, -, he, hq, rfl⟩ :=
    associationList_eq_ok h
  have hparent := Schema.mem_of_model hparent
  have hassoc := mem_of_requireField hassoc
  have hname := Schema.model_name ht
  refine settled_restrict (settled_rootList hq (regular_rootList (Include.filterClosed_true s)
    hname hq)) (local_correlation hname ?_ ?_ he)
  · exact hkeys parent hparent assoc hassoc t (Schema.mem_of_model ht) (Schema.name_of_model ht)
  · exact Schema.childKey_of_build hs hparent hassoc ht

end Query

theorem Event.settled_changedList (hs : s.Sound) {model : String} {field : Field}
    {info : ExecutionInfo} {events : List Event}
    (h : changedList s model field info events = .ok (some p)) : p.Settled := by
  obtain ⟨_, m, e, q, -, hm, he, hq, rfl⟩ := changedList_eq_ok h
  have hkey := (hs m (Schema.mem_of_model hm)).primaryKey
  exact Query.settled_restrict
    (Query.settled_rootList hq (Query.regular_rootList (Include.filterClosed_true s) hm hq))
    (Filter.local_of_compile hm (Filter.operatorName?_of_compile hm he) hkey he)

namespace Plan

/-- Every plan over a schema with plain keys has inner joins on its negated paths. -/
theorem Planned.settled {c : Config} (hs : Schema.build c = .ok s) (hkeys : s.PlainKeys)
    (h : Planned s p) : p.Settled := by
  cases h with
  | rootList h =>
    obtain ⟨m, hp⟩ := (Planned.rootList h).regular (Include.filterClosed_true s)
    exact Query.settled_rootList h hp
  | count h =>
    obtain ⟨m, hp⟩ := (Planned.count h).regular (Include.filterClosed_true s)
    exact Query.settled_count h hp
  | associationList h => exact Query.settled_associationList hs hkeys h
  | changedList h => exact Event.settled_changedList (Schema.sound_of_build hs) h
  | merge _ _ h => exact settled_of_merge h

end Plan

end RelQuery

import RelQuery.Proofs.Include.Kept
import RelQuery.Proofs.Plan.Regular

/-!
# The include tree of every plan

What every way to put include trees together keeps, holds of the include tree of every plan: of the
plans of queries and of change events, and of all merges of them.
-/

namespace RelQuery

open Include (Kept)

variable {s : Schema} {P : Model → List Include → Prop} {m : Model} {a b p : Plan}
  {selection : PartialPlan} {args : Arguments} {model : String} {field : Field}
  {info : ExecutionInfo}

/-- The includes of the plan are a tree of a kind on its model. -/
structure Plan.HasTree (s : Schema) (P : Model → List Include → Prop) (m : Model) (p : Plan) :
    Prop where
  model : s.model p.model = .ok m
  includes : P m p.includes

namespace Include.Kept

variable (H : Kept s P)
include H

/-! ## Compositions -/

theorem compose {filter : Option Filter} (c : Plan.Composition s selection filter args p)
    (h : P c.m selection.includes) : p.HasTree s P c.m := by
  have hstart : P c.m (Plan.startNodes selection args) := by
    unfold Plan.startNodes
    split
    · exact H.nil
    · exact h
  have hordered : P c.m c.ordered :=
    c.preserves (P := P c.m) (fun _ _ _ _ hns h => H.ensurePath hns h) hstart
  have hpage : P c.m (Plan.pageNodes filter args c.order c.ordered) := by
    unfold Plan.pageNodes
    split
    · exact H.splitPageAll hordered
    · exact hordered
  refine ⟨c.plan_model, ?_⟩
  rw [c.includes_plan]
  exact H.lowerAll hpage c.includes_eq

theorem exclude {fields : List String} {fs : List Filter} {ns ns' : List Include}
    (hns : P m ns) (h : Query.exclude s m fields ns = .ok (fs, ns')) : P m ns' := by
  induction fields generalizing ns fs with
  | nil =>
    cases h
    exact hns
  | cons field fields ih =>
    obtain ⟨assoc, -, h⟩ := bind_eq_ok.mp h
    obtain ⟨target, -, h⟩ := bind_eq_ok.mp h
    obtain ⟨ns₁, h₁, h⟩ := bind_eq_ok.mp h
    obtain ⟨⟨fs₁, ns₂⟩, h₂, h⟩ := bind_eq_ok.mp h
    cases h
    exact ih (H.ensurePath hns h₁) h₂

/-! ## Queries -/

theorem applyArguments (h : Query.applyArguments s selection args = .ok p)
    (hm : s.model selection.model = .ok m) (hsel : P m selection.includes) : p.HasTree s P m := by
  obtain ⟨n, filter, conditions, ns, hn, -, hex, h⟩ := Query.applyArguments_eq_ok h
  cases hm.symm.trans hn
  obtain ⟨c⟩ := Plan.composition h
  cases hm.symm.trans c.model_eq
  exact H.compose c (H.exclude hsel hex)

theorem rootList (hs : s.Sound) (h : Query.rootList s model field info = .ok p) :
    ∃ m, p.HasTree s P m := by
  obtain ⟨selection, hsel, h⟩ := bind_eq_ok.mp h
  obtain ⟨args, -, h⟩ := bind_eq_ok.mp h
  obtain ⟨m, hm, hincludes⟩ := H.plan hs hsel
  exact ⟨m, H.applyArguments h hm hincludes⟩

theorem count (h : Query.count s model field info = .ok p) : ∃ m, p.HasTree s P m := by
  obtain ⟨m, hm, h⟩ := bind_eq_ok.mp h
  obtain ⟨args, -, h⟩ := bind_eq_ok.mp h
  obtain ⟨q, hq, h⟩ := bind_eq_ok.mp h
  cases h
  obtain ⟨hmodel, hincludes⟩ := H.applyArguments hq (Schema.model_name hm) H.nil
  exact ⟨m, hmodel, hincludes⟩

theorem associationList {row : Document} (hs : s.Sound)
    (h : Query.associationList s model field row info = .ok p) : ∃ m, p.HasTree s P m := by
  obtain ⟨_, _, t, _, e, q, -, -, -, -, -, hq, rfl⟩ := Query.associationList_eq_ok h
  obtain ⟨m, hmodel, hincludes⟩ := H.rootList hs hq
  exact ⟨m, hmodel, hincludes⟩

theorem changedList {events : List Event} (hs : s.Sound)
    (h : Event.changedList s model field info events = .ok (some p)) : ∃ m, p.HasTree s P m := by
  obtain ⟨_, _, e, q, -, -, -, hq, rfl⟩ := Event.changedList_eq_ok h
  obtain ⟨m, hmodel, hincludes⟩ := H.rootList hs hq
  exact ⟨m, hmodel, hincludes⟩

/-! ## Merges -/

theorem merge {n : Model} (h : Plan.merge a b = .ok p) (ha : a.HasTree s P m)
    (hb : b.HasTree s P n) : p.HasTree s P m := by
  obtain ⟨hmodel, includes, group, order, limit, offset, hi, -, -, -, -, rfl⟩ :=
    Plan.merge_eq_ok h
  cases (hmodel ▸ ha.model).symm.trans hb.model
  refine ⟨ha.model, ?_⟩
  rw [Plan.requireNegated_eq]
  exact H.requireAll (H.mergeAll ha.includes hb.includes hi)

theorem planned (hs : s.Sound) (h : p.Planned s) : ∃ m, p.HasTree s P m := by
  induction h with
  | rootList h => exact H.rootList hs h
  | count h => exact H.count h
  | associationList h => exact H.associationList hs h
  | changedList h => exact H.changedList hs h
  | merge _ _ h iha ihb =>
    obtain ⟨m, ha⟩ := iha
    obtain ⟨n, hb⟩ := ihb
    exact ⟨m, H.merge h ha hb⟩

end Include.Kept

end RelQuery

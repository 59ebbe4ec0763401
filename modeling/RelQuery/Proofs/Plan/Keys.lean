import RelQuery.Proofs.Include.Capped
import RelQuery.Proofs.Plan.Assembly
import RelQuery.Proofs.Plan.Conforming

/-!
# Keys for later

An association can be loaded from the rows of its parent if these have its key. Every level of a
plan selects the keys of all associations that its selection sets ask for, whether they are joined
or not. No later pass takes a column away, and pages make only such nodes separate as a selection
set asked for; so the rows above a separate node have its key.
-/

namespace RelQuery

variable {s : Schema} {Q : Model → Filter → Prop} {m parent t : Model} {p a b : Plan}
  {selection : PartialPlan} {args : Arguments} {model : String} {field f : Field}
  {fields here : List Field} {info : ExecutionInfo} {assoc : Association} {n : Include}
  {ns ns' : List Include} {path hops : List String} {table : String}

namespace Include

/-! ## Passes -/

/-- A node that selects what another one does, and loads something only if that one does. -/
def Tame (n n' : Include) : Prop := n'.attributes = n.attributes ∧ (n'.Loads → n.Loads)

theorem tame_refl (n : Include) : Tame n n := ⟨rfl, id⟩

theorem rel_tame_refl (n? : Option Include) : Option.Rel Tame n? n? := by
  cases n? with
  | none => exact .none
  | some n => exact .some (tame_refl n)

theorem Carries.of_rel (h : ∀ path, Option.Rel Tame (bareAt? path ns) (bareAt? path ns')) :
    Carries ns ns' where
  covers path n hn := by
    obtain ⟨n', hn', hsame, -⟩ := exists_right_of_rel (h path) hn
    exact ⟨n', hn', hsame ▸ List.Subset.refl _⟩
  selectedAt_subset path x hx := by
    cases path with
    | nil => exact hx
    | cons hop rest =>
      obtain ⟨n', hn', hx⟩ := mem_selectedAt_cons.mp hx
      obtain ⟨n, hn, hsame, -⟩ := exists_left_of_rel (h _) hn'
      exact mem_selectedAt_cons.mpr ⟨n, hn, hsame ▸ hx⟩
  loads path n' hn' hloads := by
    obtain ⟨n, hn, -, himp⟩ := exists_left_of_rel (h path) hn'
    exact ⟨n, hn, himp hloads⟩

/-- A page makes only such nodes separate as select something. -/
theorem tame_splitPage {pinned : List (List String)} {base : List String} :
    Tame n.bare (Plan.splitPage pinned base n).bare := by
  by_cases hcut : n.separate = true ∨ Cut pinned (base ++ [n.name]) n
  · rw [splitPage_of_cut hcut]
    exact ⟨rfl, fun _ => hcut.imp id fun hcut => hcut.attributes⟩
  · obtain ⟨hs, hcut⟩ := not_or.mp hcut
    rw [splitPage_of_not_cut (Bool.eq_false_iff.mpr hs) hcut]
    exact tame_refl _

theorem rel_splitPageAll (pinned : List (List String)) (path base : List String)
    (ns : List Include) :
    Option.Rel Tame (bareAt? path ns) (bareAt? path (Plan.splitPageAll pinned base ns)) := by
  induction path generalizing base ns with
  | nil => exact .none
  | cons name rest ih =>
    have hchild : Option.Rel (fun n n' => n' = Plan.splitPage pinned base n) (child? name ns)
        (child? name (Plan.splitPageAll pinned base ns)) := by
      rw [child?_splitPageAll]
      cases child? name ns with
      | none => exact .none
      | some n => exact .some rfl
    refine rel_bareAt?_cons hchild (fun n n' hn => hn ▸ tame_splitPage) fun n n' hn => ?_
    subst hn
    rcases splitPage_eq pinned base n with heq | ⟨-, heq⟩ <;> rw [heq]
    · exact rel_tame_refl _
    · exact ih _ _

theorem carries_lowerAll (h : lowerAll s m table ns = .ok ns') : Carries ns ns' :=
  .of_rel fun path => rel_imp (lowered_lowerAll h path) fun _ _ ⟨_, heq, _⟩ => heq ▸ ⟨rfl, id⟩

theorem carries_requireAll {hopss : List (List String)} : Carries ns (requireAll hopss ns) := by
  refine .of_rel fun path => ?_
  rw [bareAt?_requireAll]
  cases bareAt? path ns with
  | none => exact .none
  | some n => exact .some ⟨rfl, id⟩

theorem selectedAt_subset_of_covers {root root' : List String} (hroot : root ⊆ root')
    (h : ∀ n, bareAt? path ns = some n → Covers ns' path n) :
    selectedAt root ns path ⊆ selectedAt root' ns' path := by
  cases path with
  | nil => exact hroot
  | cons hop rest =>
    intro x hx
    obtain ⟨n, hn, hx⟩ := mem_selectedAt_cons.mp hx
    obtain ⟨n', hn', hsub⟩ := h n hn
    exact mem_selectedAt_cons.mpr ⟨n', hn', hsub hx⟩

theorem Carries.selectedAt_mono {root root' : List String} (h : Carries ns ns')
    (hroot : root ⊆ root') : selectedAt root ns path ⊆ selectedAt root' ns' path :=
  selectedAt_subset_of_covers hroot (h.covers path)

theorem Below.exists_path (h : Below s m ns parent n) (hns : Forest s Q m ns) :
    ∃ path, s.modelAt m path = .ok parent ∧ nodeAt? (path ++ [n.name]) ns = some n := by
  induction h with
  | here hn => exact ⟨[], rfl, hns.child?_of_mem hn⟩
  | @under m t parent ns c n assoc hc hf _ ih =>
    obtain ⟨path, hpath, hn⟩ := ih ((hns.rooted c hc).includes hf)
    refine ⟨c.name :: path, Schema.modelAt_cons.mpr ⟨assoc, t, hf, hpath⟩, ?_⟩
    have hself : nodeAt? [c.name] ns = some c := hns.child?_of_mem hc
    have hne : path ++ [n.name] ≠ [] := by simp
    exact (nodeAt?_append hself hne).trans hn

end Include

open Include (Forest Carries Level levelsAt bareAt? nodeAt?)

namespace Plan

/-- The columns that a plan selects at its base. -/
def columns (p : Plan) : List String := p.attributes.filterMap fun
  | .column name => some name
  | _ => none

/-- What is selected at a path of a plan, its base or an include. -/
def selectedAt (p : Plan) (path : List String) : List String :=
  Include.selectedAt p.columns p.includes path

theorem mem_columns {name : String} : name ∈ p.columns ↔ .column name ∈ p.attributes := by
  unfold columns
  rw [List.mem_filterMap]
  constructor
  · rintro ⟨item, hitem, heq⟩
    split at heq
    · cases heq
      exact hitem
    · cases heq
  · exact fun h => ⟨_, h, rfl⟩

theorem columns_subset (h : a.attributes ⊆ p.attributes) : a.columns ⊆ p.columns :=
  List.filterMap_subset _ h

theorem mem_plainItems {attributes : List String} {name : String} (h : name ∈ attributes) :
    .column name ∈ plainItems m attributes :=
  mem_foldl_addItem.mpr (.inr (List.mem_map_of_mem (List.mem_append_left _ h)))

/-- A composition selects what its selection needs, if it is not grouped, and carries the nodes that
it starts from. -/
theorem Composition.carries {filter : Option Filter} (c : Composition s selection filter args p)
    (hns : Forest s (fun _ _ => True) c.m selection.includes) :
    Carries (startNodes selection args) p.includes ∧ p.group = args.group ∧
      (p.group = [] → selection.attributes ⊆ p.columns) := by
  have hstart : Forest s (fun _ _ => True) c.m (startNodes selection args) := by
    unfold startNodes
    split
    · exact .nil
    · exact hns
  have hordered : Forest s (fun _ _ => True) c.m c.ordered ∧
      Carries (startNodes selection args) c.ordered :=
    c.preserves (P := fun ns => Forest s (fun _ _ => True) c.m ns ∧
        Carries (startNodes selection args) ns)
      (fun _ _ _ _ ⟨hns, hcarries⟩ h =>
        ⟨hns.ensurePath h, hcarries.trans (.of_extends (Include.extends_ensurePath hns h))⟩)
      ⟨hstart, .refl _⟩
  have hpage : Carries c.ordered (pageNodes filter args c.order c.ordered) := by
    unfold pageNodes
    split
    · exact .of_rel fun path => Include.rel_splitPageAll _ path [] c.ordered
    · exact .refl _
  have hgroup : p.group = args.group := congrArg Plan.group c.plan_eq
  refine ⟨?_, hgroup, fun hnone name hname => ?_⟩
  · rw [c.includes_plan]
    exact (hordered.2.trans hpage).trans (Include.carries_lowerAll c.includes_eq)
  · have hattributes := c.attributes_eq
    rw [← hgroup, hnone] at hattributes
    have hplain : plainItems c.m selection.attributes = p.attributes :=
      (Except.ok.inj hattributes).trans (congrArg Plan.attributes c.plan_eq).symm
    exact mem_columns.mpr (hplain ▸ mem_plainItems hname)

end Plan

namespace Query

theorem carries_applyArguments (h : applyArguments s selection args = .ok p)
    (hm : s.model selection.model = .ok m)
    (hns : Forest s (fun _ _ => True) m selection.includes) :
    Carries (Plan.startNodes selection args) p.includes ∧ p.group = args.group ∧
      (p.group = [] → selection.attributes ⊆ p.columns) := by
  obtain ⟨n, filter, conditions, ns, hn, -, hex, h⟩ := applyArguments_eq_ok h
  cases hm.symm.trans hn
  obtain ⟨c⟩ := Plan.composition h
  cases hm.symm.trans c.model_eq
  obtain ⟨hcarries, hgroup, hcolumns⟩ := c.carries (forest_exclude hex hns)
  refine ⟨.trans ?_ hcarries, hgroup, hcolumns⟩
  unfold Plan.startNodes
  split
  · exact .refl _
  · exact .of_extends (extends_exclude hns hex)

/-- A list is one of a model, and its selection set can be expanded. -/
theorem exists_fields_of_rootList (h : rootList s model field info = .ok p) :
    ∃ m fields, s.model model = .ok m ∧ info.expand field.selections = .ok fields := by
  obtain ⟨selection, hsel, -⟩ := bind_eq_ok.mp h
  obtain ⟨m, hm, hsel⟩ := bind_eq_ok.mp hsel
  obtain ⟨fields, hfields, -⟩ := bind_eq_ok.mp hsel
  exact ⟨m, fields, hm, hfields⟩

/-- A list that is not grouped selects what its selection needs, and carries its tree. -/
theorem exists_level_of_rootList (hm : s.model model = .ok m)
    (hfields : info.expand field.selections = .ok fields)
    (h : rootList s model field info = .ok p) : ∃ level, Level.Asked s info m fields level ∧
      (p.group = [] → Carries level.includes p.includes ∧ level.attributes ⊆ p.columns) ∧
      (p.group ≠ [] → Carries [] p.includes) := by
  obtain ⟨selection, hsel, h⟩ := bind_eq_ok.mp h
  obtain ⟨args, -, h⟩ := bind_eq_ok.mp h
  obtain ⟨level, hasked, hforest, hcarries, hattributes⟩ :=
    Include.exists_level_of_plan hm hfields hsel
  obtain ⟨hplan, hgroup, hcolumns⟩ :=
    carries_applyArguments h (Include.model_of_plan hm hsel) hforest
  refine ⟨level, hasked, fun hnone => ⟨hcarries.trans ?_, hattributes ▸ hcolumns hnone⟩,
    fun hsome => ?_⟩
  · rwa [Plan.startNodes, ← hgroup, hnone] at hplan
  · rw [hgroup] at hsome
    rwa [Plan.startNodes, if_pos (by simpa using hsome)] at hplan

end Query

/-! ## Selection sets of a plan -/

namespace Plan

/-- A selection set becomes a level of a plan: one that the query of the plan plans there, or one of
the queries of the plans that it merges. Grouped queries plan no selection sets. -/
inductive LevelAt (s : Schema) : Plan → List String → Model → List Field → Prop
  | rootList {p : Plan} {model : String} {field : Field} {info : ExecutionInfo} {m parent : Model}
      {fields here : List Field} {path : List String} :
      Query.rootList s model field info = .ok p → p.group = [] → s.model model = .ok m →
      info.expand field.selections = .ok fields →
      (parent, here) ∈ levelsAt s info path m fields → LevelAt s p path parent here
  | associationList {p : Plan} {model : String} {field : Field} {row : Document}
      {info : ExecutionInfo} {source m parent : Model} {assoc : Association}
      {fields here : List Field} {path : List String} :
      Query.associationList s model field row info = .ok p → p.group = [] →
      s.model model = .ok source → source.associationForField? field.name = some assoc →
      s.model assoc.target = .ok m → info.expand field.selections = .ok fields →
      (parent, here) ∈ levelsAt s info path m fields → LevelAt s p path parent here
  | mergeLeft {a b p : Plan} {path : List String} {parent : Model} {here : List Field} :
      LevelAt s a path parent here → Planned s a → Planned s b → merge a b = .ok p →
      LevelAt s p path parent here
  | mergeRight {a b p : Plan} {path : List String} {parent : Model} {here : List Field} :
      LevelAt s b path parent here → Planned s a → Planned s b → merge a b = .ok p →
      LevelAt s p path parent here

section
variable (ha : a.Regular s (fun _ _ => True) m) (hb : b.Regular s (fun _ _ => True) m)
  (h : merge a b = .ok p)
include ha hb h

theorem covers_merge (hn : bareAt? path a.includes = some n ∨ bareAt? path b.includes = some n) :
    Include.Covers p.includes path n := by
  obtain ⟨includes, hmerge⟩ := mergeOf_of_merge h
  rw [hmerge.includes]
  exact (Include.covers_mergeAll ha.includes hb.includes hmerge.merged hn).trans
    (Include.carries_requireAll.covers path)

/-- A merge loads something only where one of its sides does. -/
theorem loads_merge (hn : bareAt? path p.includes = some n) (hloads : n.Loads) :
    (∃ c, bareAt? path a.includes = some c ∧ c.Loads) ∨
      ∃ c, bareAt? path b.includes = some c ∧ c.Loads := by
  obtain ⟨includes, hmerge⟩ := mergeOf_of_merge h
  rw [hmerge.includes] at hn
  obtain ⟨n₁, hn₁, hloads⟩ := Include.carries_requireAll.loads path n hn hloads
  exact Include.loads_mergeAll ha.includes hb.includes hmerge.merged hn₁ hloads

/-- A merge selects all that its sides select. -/
theorem selectedAt_subset_merge {q : Plan} (hq : q = a ∨ q = b) :
    q.selectedAt path ⊆ p.selectedAt path := by
  obtain ⟨_, hmerge⟩ := mergeOf_of_merge h
  have hitems : q.attributes ⊆ p.attributes := by
    intro item hitem
    rw [hmerge.attributes, mem_foldl_addItem]
    rcases hq with rfl | rfl
    exacts [.inl hitem, .inr hitem]
  refine Include.selectedAt_subset_of_covers (columns_subset hitems) fun n hn => ?_
  rcases hq with rfl | rfl
  exacts [covers_merge ha hb h (.inl hn), covers_merge ha hb h (.inr hn)]

end

/-- Two plans that merge are regular on one model. -/
theorem exists_regular_of_merge (ha : a.Planned s) (hb : b.Planned s) (h : merge a b = .ok p) :
    ∃ m, a.Regular s (fun _ _ => True) m ∧ b.Regular s (fun _ _ => True) m := by
  obtain ⟨m, ha⟩ := ha.regular (Include.filterClosed_true s)
  obtain ⟨m', hb⟩ := hb.regular (Include.filterClosed_true s)
  obtain ⟨hmodel, -⟩ := merge_eq_ok h
  cases (hmodel ▸ ha.model).symm.trans hb.model
  exact ⟨m, ha, hb⟩

/-- Every level of a plan selects the keys of the associations that its selection sets ask for. -/
theorem LevelAt.key (h : p.LevelAt s path parent here) (hf : f ∈ here)
    (hassoc : f.association? parent = some assoc) : assoc.parentKey parent ∈ p.selectedAt path := by
  induction h with
  | rootList h hgroup hm hfields hmem =>
    obtain ⟨level, hasked, hplan, -⟩ := Query.exists_level_of_rootList hm hfields h
    obtain ⟨hcarries, hcolumns⟩ := hplan hgroup
    exact hcarries.selectedAt_mono hcolumns (hasked.key hmem hf hassoc)
  | associationList h hgroup hsource hassoc' hm hfields hmem =>
    obtain ⟨source', assoc', t, _, e, q, hsource', hrequire, ht, -, -, hq, rfl⟩ :=
      Query.associationList_eq_ok h
    cases hsource.symm.trans hsource'
    cases hassoc'.symm.trans (Query.requireField_eq_ok.mp hrequire)
    cases hm.symm.trans ht
    obtain ⟨level, hasked, hplan, -⟩ :=
      Query.exists_level_of_rootList (Schema.model_name ht) hfields hq
    obtain ⟨hcarries, hcolumns⟩ := hplan hgroup
    exact hcarries.selectedAt_mono hcolumns (hasked.key hmem hf hassoc)
  | mergeLeft _ ha hb h ih =>
    obtain ⟨m, hra, hrb⟩ := exists_regular_of_merge ha hb h
    exact selectedAt_subset_merge hra hrb h (.inl rfl) (ih hf hassoc)
  | mergeRight _ ha hb h ih =>
    obtain ⟨m, hra, hrb⟩ := exists_regular_of_merge ha hb h
    exact selectedAt_subset_merge hra hrb h (.inr rfl) (ih hf hassoc)

/-! ## Nodes of a plan -/

/-- The key of every association for which something is loaded is selected right above it. -/
def Keyed (s : Schema) (m : Model) (p : Plan) : Prop :=
  ∀ path name n, bareAt? (path ++ [name]) p.includes = some n → n.Loads →
    ∃ parent assoc, s.modelAt m path = .ok parent ∧ parent.association? name = some assoc ∧
      assoc.parentKey parent ∈ p.selectedAt path

theorem keyed_of_nil (h : Carries [] p.includes) : p.Keyed s m := by
  intro path name n hn hloads
  obtain ⟨c, hc, -⟩ := h.loads _ n hn hloads
  rw [Include.bareAt?_nil] at hc
  cases hc

theorem keyed_rootList (hm : s.model model = .ok m)
    (h : Query.rootList s model field info = .ok p) :
    p.Keyed s m := by
  obtain ⟨_, fields, -, hfields⟩ := Query.exists_fields_of_rootList h
  obtain ⟨level, hasked, hplan, hgrouped⟩ := Query.exists_level_of_rootList hm hfields h
  by_cases hgroup : p.group = []
  · obtain ⟨hcarries, hcolumns⟩ := hplan hgroup
    intro path name n hn hloads
    obtain ⟨c, hc, hloads⟩ := hcarries.loads _ n hn hloads
    obtain ⟨parent, here, hmem, f, hf, assoc, hjoins, rfl⟩ := hasked.loads path name c hc hloads
    refine ⟨parent, assoc, Include.modelAt_of_mem_levelsAt hmem,
      Include.association?_of_asked hjoins.association, ?_⟩
    exact hcarries.selectedAt_mono hcolumns (hasked.key hmem hf hjoins.association)
  · exact keyed_of_nil (hgrouped hgroup)

theorem keyed_merge (ha : a.Regular s (fun _ _ => True) m) (hb : b.Regular s (fun _ _ => True) m)
    (h : merge a b = .ok p) (hka : a.Keyed s m) (hkb : b.Keyed s m) : p.Keyed s m := by
  intro path name n hn hloads
  rcases loads_merge ha hb h hn hloads with ⟨c, hc, hloads⟩ | ⟨c, hc, hloads⟩
  · obtain ⟨parent, assoc, hparent, hassoc, hkey⟩ := hka path name c hc hloads
    exact ⟨parent, assoc, hparent, hassoc, selectedAt_subset_merge ha hb h (.inl rfl) hkey⟩
  · obtain ⟨parent, assoc, hparent, hassoc, hkey⟩ := hkb path name c hc hloads
    exact ⟨parent, assoc, hparent, hassoc, selectedAt_subset_merge ha hb h (.inr rfl) hkey⟩

theorem keyed_of_rootList (h : Query.rootList s model field info = .ok p)
    (hm : s.model p.model = .ok m) : p.Keyed s m := by
  obtain ⟨m', -, hm', -⟩ := Query.exists_fields_of_rootList h
  have hregular : p.Regular s (fun _ _ => True) m' :=
    Query.regular_rootList (Include.filterClosed_true s) hm' h
  cases hregular.model.symm.trans hm
  exact keyed_rootList hm' h

/-- One more condition changes neither columns nor includes. -/
theorem keyed_restrict {e : Filter} (h : p.Keyed s m) : (Query.restrict p e).Keyed s m := h

theorem keyed_of_count (h : Query.count s model field info = .ok p) : p.Keyed s m := by
  obtain ⟨m', hm', h⟩ := bind_eq_ok.mp h
  obtain ⟨args, -, h⟩ := bind_eq_ok.mp h
  obtain ⟨q, hq, h⟩ := bind_eq_ok.mp h
  cases h
  have hcarries : Carries [] q.includes :=
    (Query.carries_applyArguments hq (Schema.model_name hm') .nil).1
  exact keyed_of_nil hcarries

theorem Planned.keyed (h : p.Planned s) (hm : s.model p.model = .ok m) : p.Keyed s m := by
  induction h with
  | rootList h => exact keyed_of_rootList h hm
  | count h => exact keyed_of_count h
  | associationList h =>
    obtain ⟨_, _, _, _, _, q, -, -, -, -, -, hq, rfl⟩ := Query.associationList_eq_ok h
    exact keyed_restrict (keyed_of_rootList hq hm)
  | changedList h =>
    obtain ⟨_, _, _, q, -, -, -, hq, rfl⟩ := Event.changedList_eq_ok h
    exact keyed_restrict (keyed_of_rootList hq hm)
  | merge ha hb h iha ihb =>
    obtain ⟨m', hra, hrb⟩ := exists_regular_of_merge ha hb h
    cases (hra.merge (Include.filterClosed_true s) h hrb).model.symm.trans hm
    exact keyed_merge hra hrb h (iha hra.model) (ihb hrb.model)

/-- Every level of a plan selects the key of each association that is asked for there, joined or
not; and the rows above each separate association have its key. -/
theorem Planned.parentKey_selected (h : p.Planned s) :
    (∀ path parent here, p.LevelAt s path parent here → ∀ f ∈ here, ∀ assoc,
      f.association? parent = some assoc → assoc.parentKey parent ∈ p.selectedAt path) ∧
    ∃ m, s.model p.model = .ok m ∧ ∀ parent n, Include.Below s m p.includes parent n →
      n.separate = true → ∃ path assoc, s.modelAt m path = .ok parent ∧
        nodeAt? (path ++ [n.name]) p.includes = some n ∧
        parent.association? n.name = some assoc ∧
        assoc.parentKey parent ∈ p.selectedAt path := by
  refine ⟨fun path parent here hlevel f hf assoc hassoc => hlevel.key hf hassoc, ?_⟩
  obtain ⟨m, hregular⟩ := h.regular (Include.filterClosed_true s)
  refine ⟨m, hregular.model, fun parent n hn hs => ?_⟩
  obtain ⟨path, hpath, hat⟩ := hn.exists_path hregular.includes
  have hbare : bareAt? (path ++ [n.name]) p.includes = some n.bare :=
    congrArg (Option.map Include.bare) hat
  obtain ⟨parent', assoc, hpath', hassoc, hkey⟩ :=
    h.keyed hregular.model path n.name n.bare hbare (.inl hs)
  cases hpath.symm.trans hpath'
  exact ⟨path, assoc, hpath, hat, hassoc, hkey⟩

/-! ### Customers with their first six notes -/

open Include (contactsSchema)

/-- The orders are not to be joined, and the notes are cut to a page. -/
def ordersAndNotes : List Field := [
  ⟨"orders", none, [("optimized", .scalar (.bool false))], [.field "id" none [] []]⟩,
  ⟨"notes", none, [("query", .object [("limit", .scalar (.num (.int 6 (by decide) (by decide))))])],
    [.field "id" none [] []]⟩]

def customers : Field where
  name := "customers"
  selections := ordersAndNotes.map (·.toSelection)

def customersPlan : Plan where
  model := "Customer"
  attributes := [.column "id"]
  includes := [{
    target := "Note"
    name := "notes"
    kind := .hasMany
    attributes := ["id"]
    limit := some 6
    separate := true }]

theorem rootList_customers :
    Query.rootList contactsSchema "Customer" customers {} = .ok customersPlan := by
  rfl

theorem customersPlan_keys :
    (∃ m, customersPlan.LevelAt contactsSchema [] m ordersAndNotes) ∧
    (∀ path parent here, customersPlan.LevelAt contactsSchema path parent here → ∀ f ∈ here,
      ∀ assoc, f.association? parent = some assoc →
        assoc.parentKey parent ∈ customersPlan.selectedAt path) ∧
    ∃ m, contactsSchema.model customersPlan.model = .ok m ∧
      ∀ parent n, Include.Below contactsSchema m customersPlan.includes parent n →
        n.separate = true → ∃ path assoc, contactsSchema.modelAt m path = .ok parent ∧
          nodeAt? (path ++ [n.name]) customersPlan.includes = some n ∧
          parent.association? n.name = some assoc ∧
          assoc.parentKey parent ∈ customersPlan.selectedAt path :=
  ⟨⟨_, .rootList rootList_customers rfl rfl rfl (List.mem_singleton_self _)⟩,
    Planned.parentKey_selected (.rootList rootList_customers)⟩

end Plan

end RelQuery

import RelQuery.Proofs.Plan.Restricted
import RelQuery.Proofs.Plan.Writable

/-!
# Every plan has its statements

The plans of lists, counts and change events, and the merges of such plans. Their statements are
never refused, and of a separate include at any depth only the page can be.
-/

namespace RelQuery

variable {s : Schema} {m : Model} {p a b : Plan} {f : Filter}

/-! ## Queries -/

namespace Query

theorem writable_lacks {assoc : Association} {target : Model}
    (h : s.follow m assoc.name = .ok (assoc, target)) : (lacks assoc target).Writable s m :=
  Filter.LeafWritable.writable (f := lacks assoc target)
    ⟨⟨target, Schema.modelAt_singleton h⟩, trivial⟩ rfl

theorem writable_exclude {fields : List String} {ns ns' : List Include} {fs : List Filter}
    (h : exclude s m fields ns = .ok (fs, ns')) (hns : ∀ n ∈ ns, n.Writable s m) :
    (∀ f ∈ fs, f.Writable s m) ∧ ∀ n ∈ ns', n.Writable s m := by
  induction fields generalizing ns fs with
  | nil =>
    cases h
    exact ⟨List.forall_mem_nil _, hns⟩
  | cons field fields ih =>
    obtain ⟨assoc, hassoc, h⟩ := bind_eq_ok.mp h
    obtain ⟨target, ht, h⟩ := bind_eq_ok.mp h
    obtain ⟨ns₁, h₁, h⟩ := bind_eq_ok.mp h
    obtain ⟨⟨fs₁, ns₂⟩, h₂, h⟩ := bind_eq_ok.mp h
    cases h
    obtain ⟨hfs, hns⟩ := ih h₂ (.ensurePath h₁ hns)
    refine ⟨List.forall_mem_cons.mpr ⟨writable_lacks ?_, hfs⟩, hns⟩
    unfold requireField at hassoc
    split at hassoc
    · cases hassoc
      exact Schema.follow_of_field ‹_› ht
    · cases hassoc

/-- All arguments are a composition with the filter and one condition for each association that a
row must have nothing of. -/
theorem applyArguments_eq_ok {selection : PartialPlan} {args : Arguments}
    (h : applyArguments s selection args = .ok p) : ∃ m filter conditions ns,
    s.model selection.model = .ok m ∧
    (∀ f ∈ filter, ∃ value, args.filter = some value ∧ Filter.compile s m.name value = .ok f) ∧
    exclude s m args.without selection.includes = .ok (conditions, ns) ∧
    Plan.compose s { selection with includes := ns } (Filter.all (filter ++ conditions)).proper?
      args = .ok p := by
  obtain ⟨m, hm, h⟩ := bind_eq_ok.mp h
  split at h
  · rename_i value hvalue
    obtain ⟨fs, hfs, h⟩ := bind_eq_ok.mp h
    obtain ⟨f, hf, rfl⟩ := map_eq_ok.mp hfs
    obtain ⟨⟨conditions, ns⟩, hex, h⟩ := bind_eq_ok.mp h
    exact ⟨m, [f], conditions, ns, hm, List.forall_mem_singleton.mpr ⟨value, hvalue, hf⟩, hex, h⟩
  · obtain ⟨fs, ⟨⟩, h⟩ := bind_eq_ok.mp h
    obtain ⟨⟨conditions, ns⟩, hex, h⟩ := bind_eq_ok.mp h
    exact ⟨m, [], conditions, ns, hm, List.forall_mem_nil _, hex, h⟩

theorem writable_applyArguments {selection : PartialPlan} {args : Arguments}
    (h : applyArguments s selection args = .ok p) (hsel : selection.Writable s m) :
    p.Writable s m := by
  obtain ⟨n, filter, conditions, ns, hn, hfilter, hex, h⟩ := applyArguments_eq_ok h
  cases hsel.model.symm.trans hn
  obtain ⟨hconditions, hns⟩ := writable_exclude hex hsel.includes
  refine .compose h ⟨hsel.model, hsel.attributes, hns⟩ fun f hf => ?_
  cases Filter.proper?_eq_some hf
  refine .combine (List.forall_mem_append.mpr ⟨fun f hf => ?_, hconditions⟩)
  obtain ⟨value, -, hcompile⟩ := hfilter f hf
  exact Filter.writable_of_compile (Schema.model_name hn) hcompile

theorem writable_rootList {model : String} {field : Field} {info : ExecutionInfo} (hs : s.Sound)
    (hm : s.model model = .ok m) (h : rootList s model field info = .ok p) : p.Writable s m := by
  obtain ⟨selection, hsel, h⟩ := bind_eq_ok.mp h
  obtain ⟨args, -, h⟩ := bind_eq_ok.mp h
  exact writable_applyArguments h (PartialPlan.writable_of_plan hs hm hsel)

theorem writable_count {model : String} {field : Field} {info : ExecutionInfo}
    (hm : s.model model = .ok m) (h : count s model field info = .ok p) : p.Writable s m := by
  obtain ⟨n, hn, h⟩ := bind_eq_ok.mp h
  cases hm.symm.trans hn
  obtain ⟨args, -, h⟩ := bind_eq_ok.mp h
  obtain ⟨p, hp, h⟩ := bind_eq_ok.mp h
  cases h
  have hw := writable_applyArguments hp
    ⟨Schema.model_name hm, List.nil_subset _, List.forall_mem_nil _⟩
  exact ⟨hw.model, List.forall_mem_singleton.mpr trivial, hw.includes, hw.filter⟩

theorem writable_restrict (hp : p.Writable s m) (hf : f.Writable s m) :
    (restrict p f).Writable s m := by
  refine ⟨hp.model, hp.items, hp.includes, fun g hg => ?_⟩
  cases hg
  refine .combine (List.forall_mem_append.mpr ⟨fun g hg => ?_, List.forall_mem_singleton.mpr hf⟩)
  exact hp.filter g (Option.mem_toList.mp hg)

theorem writable_correlation {assoc : Association} {target : Model} {key : Document}
    (ht : s.model target.name = .ok target) (h : correlation s assoc target key = .ok f) :
    f.Writable s target := by
  unfold correlation at h
  split at h
  · obtain ⟨literal, -, h⟩ := bind_eq_ok.mp h
    cases h
    exact .raw
  · exact Filter.writable_of_compile ht h

theorem writable_associationList {model : String} {field : Field} {row : Document}
    {info : ExecutionInfo} (hs : s.Sound) (h : associationList s model field row info = .ok p) :
    ∃ m, p.Writable s m := by
  obtain ⟨_, _, t, _, e, q, -, -, ht, -, he, hq, rfl⟩ := associationList_eq_ok h
  have ht := Schema.model_name ht
  exact ⟨t, writable_restrict (writable_rootList hs ht hq) (writable_correlation ht he)⟩

end Query

theorem Event.writable_changedList {model : String} {field : Field} {info : ExecutionInfo}
    {events : List Event} (hs : s.Sound)
    (h : changedList s model field info events = .ok (some p)) : ∃ m, p.Writable s m := by
  obtain ⟨_, m, e, q, -, hm, he, hq, rfl⟩ := changedList_eq_ok h
  exact ⟨m, Query.writable_restrict (Query.writable_rootList hs hm hq)
    (Filter.writable_of_compile hm he)⟩

/-! ## Merges -/

namespace Plan

theorem writable_requireNegated {f? : Option Filter} {ns : List Include}
    (hns : ∀ n ∈ ns, n.Writable s m) : ∀ n ∈ requireNegated f? ns, n.Writable s m := by
  cases f? with
  | none => exact hns
  | some f =>
    rw [requireNegated]
    induction f.negatedHops generalizing ns with
    | nil => exact hns
    | cons hops hopss ih => exact ih (Include.Writable.requireHops hns)

theorem merge_eq_ok (h : merge a b = .ok p) : a.model = b.model ∧
    ∃ includes group order limit offset,
      Include.mergeAll a.includes b.includes = .ok includes ∧
      agree .group (given? a.group) (given? b.group) = .ok group ∧
      agree .order (given? a.order) (given? b.order) = .ok order ∧
      agree .limit a.limit b.limit = .ok limit ∧ agree .offset a.offset b.offset = .ok offset ∧
      p = {
        model := a.model
        attributes := b.attributes.foldl addItem a.attributes
        includes := requireNegated (Filter.merge? a.filter b.filter) includes
        filter := Filter.merge? a.filter b.filter
        group := group.getD []
        order := order.getD []
        limit
        offset } := by
  unfold Plan.merge at h
  split at h
  · cases h
  · rename_i hmodel
    obtain ⟨includes, hi, h⟩ := bind_eq_ok.mp h
    obtain ⟨group, hg, h⟩ := bind_eq_ok.mp h
    obtain ⟨order, ho, h⟩ := bind_eq_ok.mp h
    obtain ⟨limit, hl, h⟩ := bind_eq_ok.mp h
    obtain ⟨offset, hoff, h⟩ := bind_eq_ok.mp h
    cases h
    exact ⟨not_ne_iff.mp hmodel, includes, group, order, limit, offset, hi, hg, ho, hl, hoff, rfl⟩

/-- Two plans that merge are on one model. -/
theorem Writable.merge {n : Model} (h : merge a b = .ok p) (ha : a.Writable s m)
    (hb : b.Writable s n) : p.Writable s m := by
  obtain ⟨hmodel, includes, group, order, limit, offset, hi, -, -, -, -, rfl⟩ := merge_eq_ok h
  cases (hmodel ▸ ha.model).symm.trans hb.model
  exact ⟨ha.model, .foldl_addItem ha.items hb.items,
    writable_requireNegated (.mergeAll hi ha.includes hb.includes),
    fun f hf => .merge ha.filter hb.filter hf⟩

/-! ## All plans -/

/-- The plans that queries and change events read rows by, and all merges of them. -/
inductive Planned (s : Schema) : Plan → Prop
  | rootList {p : Plan} {model : String} {field : Field} {info : ExecutionInfo} :
      Query.rootList s model field info = .ok p → Planned s p
  | count {p : Plan} {model : String} {field : Field} {info : ExecutionInfo} :
      Query.count s model field info = .ok p → Planned s p
  | associationList {p : Plan} {model : String} {field : Field} {row : Document}
      {info : ExecutionInfo} :
      Query.associationList s model field row info = .ok p → Planned s p
  | changedList {p : Plan} {model : String} {field : Field} {info : ExecutionInfo}
      {events : List Event} :
      Event.changedList s model field info events = .ok (some p) → Planned s p
  | merge {a b p : Plan} : Planned s a → Planned s b → Plan.merge a b = .ok p → Planned s p

theorem Planned.writable (hs : s.Sound) (h : Planned s p) : ∃ m, p.Writable s m := by
  induction h with
  | rootList h =>
    obtain ⟨selection, hsel, -⟩ := bind_eq_ok.mp h
    obtain ⟨m, hm, -⟩ := bind_eq_ok.mp hsel
    exact ⟨m, Query.writable_rootList hs hm h⟩
  | count h =>
    obtain ⟨m, hm, -⟩ := bind_eq_ok.mp h
    exact ⟨m, Query.writable_count hm h⟩
  | associationList h => exact Query.writable_associationList hs h
  | changedList h => exact Event.writable_changedList hs h
  | merge _ _ h iha ihb =>
    obtain ⟨m, ha⟩ := iha
    obtain ⟨n, hb⟩ := ihb
    exact ⟨m, ha.merge h hb⟩

end Plan

namespace Include

/-- A node at any depth of an include tree, with the model that its parent reaches. -/
inductive Below (s : Schema) : Model → List Include → Model → Include → Prop
  | here {m : Model} {ns : List Include} {n : Include} : n ∈ ns → Below s m ns m n
  | under {m t parent : Model} {ns : List Include} {c n : Include} {assoc : Association} :
      c ∈ ns → s.follow m c.name = .ok (assoc, t) → Below s t c.includes parent n →
      Below s m ns parent n

theorem Below.writable {parent : Model} {ns : List Include} {n : Include}
    (h : Below s m ns parent n) (hns : ∀ n ∈ ns, n.Writable s m) : n.Writable s parent := by
  induction h with
  | here hn => exact hns _ hn
  | under hc hf _ ih => exact ih ((hns _ hc).includes hf)

/-- A page is refused exactly if its last row number is no `bigint`. -/
theorem exists_page {n : Include} : (∃ page, n.page = .ok page) ↔
    ¬∃ limit, n.limit = some limit ∧ 9223372036854775807 < n.offset.getD 0 + limit := by
  unfold page
  cases n.limit with
  | none => simp
  | some limit =>
    by_cases h : n.offset.getD 0 + limit < Bigint.bound
    · have h' : ¬9223372036854775807 < n.offset.getD 0 + limit := by
        unfold Bigint.bound at h
        omega
      simp [h, h']
    · have h' : 9223372036854775807 < n.offset.getD 0 + limit := by
        unfold Bigint.bound at h
        omega
      simp [h, h', malformed]

end Include

/-- Every plan has its statement, and every separate include of it has one for each list of parent
keys, unless the last row number of its page is no `bigint`. -/
theorem Plan.Planned.exists_statements {c : Config} (hs : Schema.build c = .ok s)
    (h : Planned s p) : (∃ st, p.statement s = .ok st) ∧ ∃ m, s.model p.model = .ok m ∧
      ∀ parent n, Include.Below s m p.includes parent n → n.separate = true →
        ∀ keys, (∃ st, n.batchStatement s parent keys = .ok st) ↔
          ¬∃ limit, n.limit = some limit ∧ 9223372036854775807 < n.offset.getD 0 + limit := by
  obtain ⟨m, hp⟩ := h.writable (Schema.sound_of_build hs)
  refine ⟨hp.exists_statement, m, hp.model, fun parent n hn _ keys => ?_⟩
  rw [(hn.writable hp.includes).exists_batchStatement, Include.exists_page]

/-! ### Authors with their first three books -/

def library : Config where
  models := [
    { name := "Author"
      table := some "authors"
      attributes := [{ name := "id", type := "INTEGER", primaryKey := true }]
      associations := [{
        kind := .hasMany
        target := "Book"
        declaredName := some "books"
        foreignKey := "author" }] },
    { name := "Book"
      table := some "books"
      attributes := [{ name := "id", type := "INTEGER", primaryKey := true },
        { name := "author", type := "INTEGER" }] }]

def librarySchema : Schema := ⟨library.models.map (·.resolve), library.options⟩

theorem build_library : Schema.build library = .ok librarySchema := by decide

def authors : Field where
  name := "authors"
  selections := [.field "books" none
    [("query", .object [("limit", .scalar (.num (.int 3 (by decide) (by decide))))])]
    [.field "id" none [] []]]

def authorPlan : Plan where
  model := "Author"
  attributes := [.column "id"]
  includes := [{
    target := "Book"
    name := "books"
    kind := .hasMany
    attributes := ["id"]
    limit := some 3
    separate := true }]

theorem rootList_authors : Query.rootList librarySchema "Author" authors {} = .ok authorPlan := by
  rfl

theorem authorPlan_statements : (∃ st, authorPlan.statement librarySchema = .ok st) ∧
    ∃ m, librarySchema.model authorPlan.model = .ok m ∧
      ∀ parent n, Include.Below librarySchema m authorPlan.includes parent n → n.separate = true →
        ∀ keys, (∃ st, n.batchStatement librarySchema parent keys = .ok st) ↔
          ¬∃ limit, n.limit = some limit ∧ 9223372036854775807 < n.offset.getD 0 + limit :=
  Plan.Planned.exists_statements build_library (.rootList rootList_authors)

end RelQuery

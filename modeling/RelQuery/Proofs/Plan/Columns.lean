import RelQuery.Proofs.Filter.WellFormed
import RelQuery.Proofs.Plan.Conforming
import RelQuery.Proofs.Plan.SelectLists
import RelQuery.Proofs.Statement.Columns

/-!
# The columns that statements name

What a statement selects, compares, groups by and joins on are columns of stored attributes, behind
the names that their models have in it, and columns of link tables. An accepted schema may still
correlate an association on a computed attribute, and a computed attribute may list what is no
stored attribute: then a join or an order names a column that its table need not have.
-/

namespace RelQuery

variable {s : Schema} {m n t parent : Model} {name table column : String} {hops : List String}
  {assoc : Association} {config : Config}

/-- In statements on `m` the model `n` goes by the name `table`, which is that of a path to it. -/
def Model.GoesBy (s : Schema) (m n : Model) (table : String) : Prop :=
  ∃ hops, s.modelAt m hops = .ok n ∧ table = joinName m.name hops

/-- The attributes of a model on which its associations, and those that lead to it, correlate. -/
inductive Model.CorrelatesOn (s : Schema) (m : Model) : String → Prop
  | source {assoc : Association} : assoc ∈ m.associations →
      CorrelatesOn s m (assoc.parentKey m)
  | target {source : Model} {assoc : Association} : source ∈ s.models →
      assoc ∈ source.associations → s.targetOf assoc = .ok m →
      CorrelatesOn s m (assoc.childKey m)

/-- A stored attribute of a model has this column. -/
def Model.HasColumn (m : Model) (column : String) : Prop :=
  ∃ a ∈ m.attributes, a.computed = none ∧ a.column = column

instance (m : Model) (column : String) : Decidable (m.HasColumn column) :=
  inferInstanceAs (Decidable (∃ a ∈ m.attributes, a.computed = none ∧ a.column = column))

/-- The columns that a statement on `m` names. -/
inductive ColumnRef.Written (s : Schema) (m : Model) : ColumnRef → Prop
  | stored {n : Model} {table column : String} : m.GoesBy s n table → n.HasColumn column →
      Written s m ⟨table, column⟩
  | link {n source : Model} {table column : String} {assoc : Association} {link : LinkTable} :
      m.GoesBy s n table → source ∈ s.models → assoc ∈ source.associations →
      s.targetOf assoc = .ok n → assoc.usedLink? = some link →
      column = link.foreignKey ∨ column = link.otherKey → Written s m ⟨linkName table, column⟩
  /-- An association correlates on a computed attribute. -/
  | computedKey {n : Model} {table name : String} {a : Attribute} : m.GoesBy s n table →
      n.CorrelatesOn s name → n.attribute? name = some a → a.isComputed = true →
      ¬n.HasColumn a.column → Written s m ⟨table, a.column⟩
  /-- A computed attribute is ordered by what it lists. -/
  | listed {a : Attribute} {c : Computed} {name : String} : a ∈ m.attributes →
      a.computed = some c → name ∈ c.columns → ¬m.HasColumn (m.columnOf name) →
      Written s m ⟨m.name, m.columnOf name⟩

/-! ## Names -/

namespace Model

theorem columnOf_eq {a : Attribute} (h : m.attribute? name = some a) :
    m.columnOf name = a.column := by
  rw [columnOf, h]

theorem hasColumn_of_attribute? {a : Attribute} (h : m.attribute? name = some a)
    (hstored : a.computed = none) : m.HasColumn a.column :=
  ⟨a, List.mem_of_find?_eq_some h, hstored, rfl⟩

theorem Stored.hasColumn (h : m.Stored name) : m.HasColumn (m.columnOf name) := by
  obtain ⟨a, ha, hstored⟩ := h
  rw [columnOf_eq ha]
  exact hasColumn_of_attribute? ha hstored

theorem GoesBy.self : m.GoesBy s m m.name := ⟨[], rfl, Include.joinName_nil.symm⟩

theorem GoesBy.modelAt (h : m.GoesBy s parent table) (hn : s.modelAt parent hops = .ok n) :
    m.GoesBy s n (joinName table hops) := by
  obtain ⟨above, hparent, rfl⟩ := h
  exact ⟨above ++ hops, (Schema.modelAt_append hparent).trans hn, Include.joinName_append⟩

theorem GoesBy.follow (h : m.GoesBy s parent table) (hf : s.follow parent name = .ok (assoc, n)) :
    m.GoesBy s n (joinName table [name]) :=
  h.modelAt (Schema.modelAt_singleton hf)

theorem GoesBy.mem (h : m.GoesBy s n table) (hm : m ∈ s.models) : n ∈ s.models := by
  obtain ⟨hops, hn, -⟩ := h
  exact Schema.mem_of_modelAt hm hn

theorem CorrelatesOn.mem_attributeNames (hs : Schema.build config = .ok s) (hm : m ∈ s.models)
    (h : m.CorrelatesOn s name) : name ∈ m.attributeNames := by
  cases h with
  | source hassoc => exact (Schema.sound_of_build hs m hm).parentKey _ hassoc
  | target hsource hassoc ht => exact Schema.childKey_of_build hs hsource hassoc ht

end Model

namespace ColumnRef.Written

theorem of_correlatesOn (hs : Schema.build config = .ok s) (hm : m ∈ s.models)
    (hn : m.GoesBy s n table) (h : n.CorrelatesOn s name) :
    Written s m ⟨table, n.columnOf name⟩ := by
  have hmem := h.mem_attributeNames hs (hn.mem hm)
  obtain ⟨a, ha⟩ := Option.isSome_iff_exists.mp (Model.attribute?_isSome.mpr hmem)
  rw [Model.columnOf_eq ha]
  by_cases hcolumn : n.HasColumn a.column
  · exact .stored hn hcolumn
  · have hcomputed : a.isComputed = true :=
      Option.isSome_iff_ne_none.mpr fun hc => hcolumn (Model.hasColumn_of_attribute? ha hc)
    exact .computedKey hn h ha hcomputed hcolumn

theorem primaryKey (hs : Schema.build config = .ok s) (hm : m ∈ s.models)
    (hn : m.GoesBy s n table) : Written s m ⟨table, n.columnOf n.primaryKey⟩ :=
  .stored hn (Schema.primaryKey_of_build hs (hn.mem hm)).hasColumn

end ColumnRef.Written

/-! ## Filters -/

namespace Filter

/-- Every comparison of a filter on `m` is with a stored attribute of the model behind its hops. -/
def ComparesStored (s : Schema) (m : Model) (f : Filter) : Prop :=
  ∀ c, .comparison c ∈ f.leaves → ∃ n, s.modelAt m c.path.hops = .ok n ∧ n.Stored c.path.attr

variable {f g : Filter} {fs : List Filter} {c : Condition}

theorem ComparesStored.all (h : ∀ f ∈ fs, f.ComparesStored s m) :
    (Filter.all fs).ComparesStored s m := by
  intro c hc
  obtain ⟨f, hf, hc⟩ := mem_leaves_combine hc
  exact h f hf c hc

theorem comparesStored_of_compile {value : Document} (hm : s.model m.name = .ok m)
    (h : compile s m.name value = .ok f) : f.ComparesStored s m := by
  intro c hc
  obtain ⟨scope, op, d, hleaf, hs⟩ := exists_leaf_of_compile hm h hc rfl
  obtain ⟨n, a, hformed⟩ := leafWellFormed hleaf hs
  exact ⟨n, hformed.modelAt, a, hformed.attr, hformed.stored⟩

/-- Lowering puts no comparison in the place of another. -/
theorem ComparesStored.lower (hf : f.ComparesStored s m) (h : f.lower s m table = .ok g) :
    g.ComparesStored s m := by
  intro c hc
  obtain ⟨k, hk, hl⟩ := mem_leaves_lower h hc
  have hleaf := isLeaf_of_mem hk
  cases k with
  | comparison c' =>
    cases hl
    exact hf c hk
  | raw sql => cases hl
  | computed c' =>
    obtain ⟨n, -, hl⟩ := bind_eq_ok.mp hl
    cases hl
  | _ => exact hleaf.elim

theorem filterClosed_comparesStored (hs : Schema.build config = .ok s) :
    Include.FilterClosed s fun t f => f.ComparesStored s t where
  lacks hf c hc := by
    cases List.mem_singleton.mp hc
    exact ⟨_, Schema.modelAt_singleton hf,
      Schema.primaryKey_of_build hs (Schema.mem_of_follow hf)⟩
  compile hm h := comparesStored_of_compile hm h
  all := .all
  merge hf hg h c hc := by
    obtain ⟨k, hk, hc⟩ := mem_leaves_merge? h hc
    rcases hk with ⟨⟨⟩⟩ | ⟨⟨⟩⟩
    · exact hf c hc
    · exact hg c hc
  raw c hc := nomatch List.mem_singleton.mp hc
  lower := .lower

theorem ComparesStored.written (hf : f.ComparesStored s n) (hn : m.GoesBy s n table)
    (h : f.condition s n table = .ok c) : ∀ ref ∈ Sql.columns c.sql, ref.Written s m := by
  rw [Sql.columns, Condition.filterMap_sql]
  intro ref href
  obtain ⟨ps, hps, href⟩ := List.mem_flatMap.mp href
  obtain ⟨l, hl, hatom⟩ := atom_of_condition h hps
  cases hatom with
  | @comparison c column sql hcolumn hsql =>
    cases List.mem_singleton.mp (Comparison.columns_sql hsql href)
    obtain ⟨t, ht, hstored⟩ := hf c hl
    obtain ⟨t', ht', hcolumn⟩ := bind_eq_ok.mp hcolumn
    cases ht.symm.trans ht'
    cases hcolumn
    exact .stored (hn.modelAt ht) hstored.hasColumn
  | computed => simp at href
  | raw => simp at href

theorem written_condition? {f? : Option Filter} {c? : Option Condition}
    (hf : ∀ f, f? = some f → f.ComparesStored s n) (hn : m.GoesBy s n table)
    (h : condition? s n table f? = .ok c?) : ∀ ref ∈ Condition.columns? c?, ref.Written s m := by
  intro ref href
  obtain ⟨c, hc, href⟩ := List.mem_flatMap.mp href
  obtain ⟨f, hfilter, hc⟩ := exists_left_of_rel (rel_condition? h) (Option.mem_toList.mp hc)
  exact (hf f hfilter).written hn hc ref href

end Filter

/-! ## Includes -/

theorem Attribute.written_selected {a : Attribute} (hn : m.GoesBy s n table)
    (ha : n.attribute? name = some a) :
    ∀ ref ∈ Sql.columns (a.selected n table), ref.Written s m := by
  unfold selected
  split
  · simp
  · rename_i hstored
    have hwritten := ColumnRef.Written.stored hn (Model.hasColumn_of_attribute? ha hstored)
    split <;> simpa using hwritten

namespace Include

variable {Q : Model → Filter → Prop} {ns : List Include} {i : Include} {key : String}
  {attributes : List String} {pss : List Sql} {js : List Join}

theorem written_ownColumns (hn : m.GoesBy s n table)
    (h : ownColumns n table key attributes = .ok pss) :
    ∀ ps ∈ pss, ∀ ref ∈ Sql.columns ps, ref.Written s m := by
  intro ps hps
  obtain ⟨name, -, h⟩ := mem_of_mapM h hps
  obtain ⟨a, ha, h⟩ := bind_eq_ok.mp h
  cases h
  rw [Sql.columns, Sql.filterMap_named]
  exact a.written_selected hn (Model.requireAttribute_eq_ok.mp ha)

theorem Rooted.written_columns (hi : i.Rooted s Q parent) (hparent : m.GoesBy s parent table)
    (h : columns s parent table key i = .ok pss) :
    ∀ ps ∈ pss, ∀ ref ∈ Sql.columns ps, ref.Written s m := by
  induction hi generalizing table key pss with
  | @node parent t assoc i hf _ _ _ _ _ ih =>
    by_cases hsep : i.separate = true
    · rw [columns_of_separate hsep] at h
      cases h
      nofun
    · rw [columns_steps (Bool.eq_false_iff.mpr hsep), hf, ok_bind] at h
      obtain ⟨here, hhere, h⟩ := bind_eq_ok.mp h
      obtain ⟨below, hbelow, h⟩ := bind_eq_ok.mp h
      cases h
      have ht := hparent.follow hf
      refine List.forall_mem_append.mpr ⟨written_ownColumns ht hhere, fun ps hps => ?_⟩
      obtain ⟨c, hc, pss, hpss, hps⟩ := exists_columns_of_mem hbelow hps
      exact ih c hc ht hpss ps hps

theorem Forest.written_columnsAll (hns : Forest s Q parent ns) (hparent : m.GoesBy s parent table)
    (h : columnsAll s parent table key ns = .ok pss) :
    ∀ ps ∈ pss, ∀ ref ∈ Sql.columns ps, ref.Written s m := by
  intro ps hps
  obtain ⟨c, hc, pss, hpss, hps⟩ := exists_columns_of_mem h hps
  exact (hns.rooted c hc).written_columns hparent hpss ps hps

section
variable (hs : Schema.build config = .ok s) (hm : m ∈ s.models)
include hs hm

/-- A join correlates on keys and passes through a link table. -/
theorem written_joinOf {required : Bool} {condition : Option Condition}
    (hparent : m.GoesBy s parent table) (hf : s.follow parent name = .ok (assoc, t))
    (hcondition : ∀ ref ∈ Condition.columns? condition, ref.Written s m) :
    ∀ ref ∈ Sql.columns (joinOf assoc parent t table required condition).sql,
      ref.Written s m := by
  cases Schema.name_of_follow hf
  have ht := hparent.follow hf
  have hmem := hparent.mem hm
  obtain ⟨hassoc, htarget⟩ := Schema.follow_eq_ok.mp hf
  have hassoc := Model.mem_of_association? hassoc
  have hright := ColumnRef.Written.of_correlatesOn hs hm hparent (.source hassoc)
  rw [Join.columns_sql]
  unfold joinOf
  cases hlink : assoc.usedLink? with
  | none =>
    have hleft := ColumnRef.Written.of_correlatesOn hs hm ht (.target hmem hassoc htarget)
    simpa [linkColumns, hleft, hright] using hcondition
  | some link =>
    have hprimary := ColumnRef.Written.primaryKey hs hm ht
    have hother := ColumnRef.Written.link ht hmem hassoc htarget hlink (.inr rfl)
    have hforeign := ColumnRef.Written.link ht hmem hassoc htarget hlink (.inl rfl)
    simpa [linkColumns, hprimary, hother, hforeign, hright] using hcondition

theorem Rooted.written_joins (hi : i.Rooted s (fun t f => f.ComparesStored s t) parent)
    (hparent : m.GoesBy s parent table) (h : joins s parent table i = .ok js) :
    ∀ j ∈ js, ∀ ref ∈ Sql.columns j.sql, ref.Written s m := by
  induction hi generalizing table js with
  | @node parent t assoc i hf _ _ hfilter _ _ ih =>
    by_cases hsep : i.separate = true
    · rw [joins_of_separate hsep] at h
      cases h
      nofun
    · obtain ⟨condition, below, hcondition, hbelow, rfl⟩ :=
        joins_eq_ok h (Bool.eq_false_iff.mpr hsep) hf
      have ht := hparent.follow hf
      refine List.forall_mem_cons.mpr ⟨?_, fun j hj => ?_⟩
      · exact written_joinOf hs hm hparent hf (Filter.written_condition? hfilter ht hcondition)
      · obtain ⟨c, hc, js, hjs, hj, -⟩ := exists_joins_of_mem hbelow hj
        exact ih c hc ht hjs j hj

theorem Forest.written_joinsAll (hns : Forest s (fun t f => f.ComparesStored s t) parent ns)
    (hparent : m.GoesBy s parent table) (h : joinsAll s parent table ns = .ok js) :
    ∀ j ∈ js, ∀ ref ∈ Sql.columns j.sql, ref.Written s m := by
  intro j hj
  obtain ⟨c, hc, js, hjs, hj, -⟩ := exists_joins_of_mem h hj
  exact (hns.rooted c hc).written_joins hs hm hparent hjs j hj

end

end Include

/-! ## Items and orders -/

theorem SelectItem.written {item : SelectItem} {ps : Sql} (hs : Schema.build config = .ok s)
    (hm : m ∈ s.models) (hitem : ∀ f attr output, item = .aggregate f attr output → m.Stored attr)
    (h : item.sql m m.name = .ok ps) : ∀ ref ∈ Sql.columns ps, ref.Written s m := by
  cases item with
  | column name =>
    obtain ⟨a, ha, h⟩ := bind_eq_ok.mp h
    rw [← Except.ok.inj h, Sql.columns, Sql.filterMap_named]
    exact a.written_selected .self (Model.requireAttribute_eq_ok.mp ha)
  | aggregate func attr output =>
    obtain ⟨a, ha, h⟩ := bind_eq_ok.mp h
    have hcolumn := (hitem func attr output rfl).hasColumn
    rw [Model.columnOf_eq (Model.requireAttribute_eq_ok.mp ha)] at hcolumn
    have hwritten : ColumnRef.Written s m _ := .stored .self hcolumn
    rw [← Except.ok.inj h, Sql.columns, Sql.filterMap_named]
    split <;> simpa using hwritten
  | count =>
    cases h
    simpa using ColumnRef.Written.primaryKey hs hm .self

namespace Plan

theorem TargetOf.written {e : OrderEntry} (h : TargetOf s m e.target) :
    ∀ ref ∈ Sql.columns (e.sql m.name), ref.Written s m := by
  unfold OrderEntry.sql
  cases ht : e.target with
  | expression sql => simp
  | column hops model column =>
    rw [ht] at h
    suffices hwritten : ColumnRef.Written s m ⟨joinName m.name hops, column⟩ by simpa using hwritten
    cases h with
    | stored hn ha hstored =>
      exact .stored (Model.GoesBy.self.modelAt hn) (Model.hasColumn_of_attribute? ha hstored)
    | @listed a c name ha hc hname =>
      rw [Include.joinName_nil]
      by_cases hcolumn : m.HasColumn (m.columnOf name)
      · exact .stored .self hcolumn
      · exact .listed ha hc hname hcolumn

/-! ## Plans -/

/-- A plan on `m` aggregates and groups by stored attributes, and is ordered by what an order may
name. -/
structure Named (s : Schema) (m : Model) (p : Plan) : Prop where
  aggregates : ∀ f attr output, .aggregate f attr output ∈ p.attributes → m.Stored attr
  group : ∀ key ∈ p.group, m.Stored key
  order : ∀ e ∈ p.order, TargetOf s m e.target

variable {p q a b : Plan} {args : Arguments} {items : List SelectItem} {f : Filter}

theorem targetOf_localColumn (h : m.Stored name) : TargetOf s m (localColumn m (m.columnOf name)) := by
  obtain ⟨a, ha, hstored⟩ := h
  exact Model.columnOf_eq ha ▸ .stored rfl ha hstored

theorem named_of_compose {selection : PartialPlan} {filter : Option Filter}
    (h : compose s selection filter args = .ok p) (hm : s.model p.model = .ok m) :
    p.Named s m := by
  obtain ⟨c⟩ := composition h
  cases hm.symm.trans c.plan_model
  have hattributes := c.attributes_eq
  have hitems : p.attributes = c.attributes := congrArg attributes c.plan_eq
  have hgroup : p.group = args.group := congrArg group c.plan_eq
  have horder : p.order = orderOf c.m args c.order := congrArg order c.plan_eq
  have hkeys : ∀ key ∈ args.group, c.m.Stored key := by
    split at hattributes
    · exact stored_of_groupedItems hattributes
    · simp_all
  refine ⟨fun f attr output hmem => ?_, hgroup ▸ hkeys, fun e he => ?_⟩
  · rw [hitems] at hmem
    split at hattributes
    · rcases mem_groupedItems hattributes hmem with ⟨_, _, ⟨⟩⟩ | ⟨_, _, ⟨⟩, -, -, hstored⟩
      exact hstored
    · rw [← Except.ok.inj hattributes] at hmem
      obtain ⟨_, ⟨⟩⟩ := column_of_plainItems hmem
  · rw [horder, orderOf] at he
    split at he
    · obtain ⟨key, hkey, rfl⟩ := List.mem_map.mp he
      exact targetOf_localColumn (hkeys key hkey)
    · exact targetOf_attachOrders c.ordered_eq he

theorem named_of_applyArguments {selection : PartialPlan}
    (h : Query.applyArguments s selection args = .ok p) (hm : s.model p.model = .ok m) :
    p.Named s m := by
  obtain ⟨n, filter, conditions, ns, -, -, -, h⟩ := Query.applyArguments_eq_ok h
  exact named_of_compose h hm

theorem named_of_rootList {model : String} {field : Field} {info : ExecutionInfo}
    (h : Query.rootList s model field info = .ok p) (hm : s.model p.model = .ok m) :
    p.Named s m := by
  obtain ⟨selection, -, h⟩ := bind_eq_ok.mp h
  obtain ⟨args, -, h⟩ := bind_eq_ok.mp h
  exact named_of_applyArguments h hm

theorem named_of_count {model : String} {field : Field} {info : ExecutionInfo}
    (h : Query.count s model field info = .ok p) (hm : s.model p.model = .ok m) :
    p.Named s m := by
  obtain ⟨n, -, h⟩ := bind_eq_ok.mp h
  obtain ⟨args, -, h⟩ := bind_eq_ok.mp h
  obtain ⟨q, hq, h⟩ := bind_eq_ok.mp h
  cases h
  have hnamed := named_of_applyArguments hq hm
  refine ⟨fun f attr output hmem => ?_, hnamed.group, hnamed.order⟩
  cases List.mem_singleton.mp hmem

theorem Named.restrict (h : p.Named s m) : (Query.restrict p f).Named s m :=
  ⟨h.aggregates, h.group, h.order⟩

/-- A merge is grouped and ordered like one of its sides. -/
theorem given_of_merge (h : merge a b = .ok p) :
    (p.group = a.group ∨ p.group = b.group) ∧ (p.order = a.order ∨ p.order = b.order) := by
  obtain ⟨includes, hp⟩ := mergeOf_of_merge h
  have hor {α : Type} {as bs cs : List α} (h : given? cs = (given? as).or (given? bs)) :
      cs = as ∨ cs = bs := by
    cases ha : given? as with
    | none => exact .inr (given?_injective (by rw [h, ha, Option.none_or]))
    | some => exact .inl (given?_injective (by rw [h, ha, Option.some_or]))
  exact ⟨hor hp.group, hor hp.order⟩

theorem Named.merge (ha : a.Named s m) (hb : b.Named s m) (h : merge a b = .ok p) :
    p.Named s m := by
  obtain ⟨hgroup, horder⟩ := given_of_merge h
  obtain ⟨includes, hp⟩ := mergeOf_of_merge h
  refine ⟨fun f attr output hmem => ?_, fun key hkey => ?_, fun e he => ?_⟩
  · rw [hp.attributes, mem_foldl_addItem] at hmem
    exact hmem.elim (ha.aggregates f attr output) (hb.aggregates f attr output)
  · rcases hgroup with hgroup | hgroup
    · exact ha.group key (hgroup ▸ hkey)
    · exact hb.group key (hgroup ▸ hkey)
  · rcases horder with horder | horder
    · exact ha.order e (horder ▸ he)
    · exact hb.order e (horder ▸ he)

theorem Planned.named (h : Planned s p) (hm : s.model p.model = .ok m) : p.Named s m := by
  induction h with
  | rootList h => exact named_of_rootList h hm
  | count h => exact named_of_count h hm
  | associationList h =>
    obtain ⟨_, _, _, _, _, q, -, -, -, -, -, hq, rfl⟩ := Query.associationList_eq_ok h
    exact (named_of_rootList hq hm).restrict
  | changedList h =>
    obtain ⟨_, _, _, q, -, -, -, hq, rfl⟩ := Event.changedList_eq_ok h
    exact (named_of_rootList hq hm).restrict
  | merge ha hb h iha ihb =>
    obtain ⟨hmodel, includes, group, order, limit, offset, -, -, -, -, -, rfl⟩ := merge_eq_ok h
    exact (iha hm).merge (ihb (hmodel ▸ hm)) h

end Plan

/-! ## Statements -/

section
variable (hs : Schema.build config = .ok s)
include hs

theorem Plan.written_select {p : Plan} {q : Select}
    (hp : p.Regular s (fun t f => f.ComparesStored s t) m) (hn : p.Named s m)
    (h : p.select s = .ok q) : ∀ ref ∈ Sql.columns q.sql, ref.Written s m := by
  have hm := Schema.mem_of_model hp.model
  rw [select_steps, hp.model, ok_bind] at h
  obtain ⟨items, hitems, h⟩ := bind_eq_ok.mp h
  obtain ⟨below, hbelow, h⟩ := bind_eq_ok.mp h
  obtain ⟨joins, hjoins, h⟩ := bind_eq_ok.mp h
  obtain ⟨condition, hcondition, h⟩ := bind_eq_ok.mp h
  cases h
  have hitems : ∀ ps ∈ items, ∀ ref ∈ Sql.columns ps, ref.Written s m := by
    intro ps hps
    obtain ⟨item, hitem, h⟩ := mem_of_mapM hitems hps
    exact item.written hs hm (fun f attr output heq => hn.aggregates f attr output (heq ▸ hitem)) h
  have hbelow : ∀ ps ∈ below, ∀ ref ∈ Sql.columns ps, ref.Written s m := by
    split at hbelow
    · cases hbelow
      nofun
    · exact hp.includes.written_columnsAll .self hbelow
  have hjoins := hp.includes.written_joinsAll hs hm .self hjoins
  have hcondition := Filter.written_condition? hp.filter .self hcondition
  have hgroup : ∀ ref ∈ p.group.map fun key => (⟨m.name, m.columnOf key⟩ : ColumnRef),
      ref.Written s m :=
    List.forall_mem_map.mpr fun key hkey => .stored .self (hn.group key hkey).hasColumn
  have horder : ∀ ps ∈ p.order.map (·.sql m.name), ∀ ref ∈ Sql.columns ps, ref.Written s m :=
    List.forall_mem_map.mpr fun e he => (hn.order e he).written
  rw [Select.columns_sql]
  simp only [List.forall_mem_append, List.forall_mem_flatMap]
  refine ⟨⟨⟨⟨⟨hitems, hbelow⟩, hjoins⟩, hcondition⟩, hgroup⟩, ?_⟩
  split
  · nofun
  · exact horder

theorem Include.written_batch {i : Include} {keys : List Document} {b : Batch}
    (hi : i.Rooted s (fun t f => f.ComparesStored s t) parent) (hparent : parent ∈ s.models)
    (hf : s.follow parent i.name = .ok (assoc, t)) (h : i.batch s parent keys = .ok b) :
    ∀ ref ∈ Sql.columns b.sql, ref.Written s t := by
  have ht := Schema.mem_of_follow hf
  obtain ⟨hassoc, htarget⟩ := Schema.follow_eq_ok.mp hf
  have hassoc := Model.mem_of_association? hassoc
  rw [batch_steps, hf, ok_bind] at h
  obtain ⟨items, hitems, h⟩ := bind_eq_ok.mp h
  obtain ⟨below, hbelow, h⟩ := bind_eq_ok.mp h
  obtain ⟨joins, hjoins, h⟩ := bind_eq_ok.mp h
  obtain ⟨filter, hfilter, h⟩ := bind_eq_ok.mp h
  obtain ⟨page, -, h⟩ := bind_eq_ok.mp h
  cases h
  have hitems : ∀ ps ∈ items, ∀ ref ∈ Sql.columns ps, ref.Written s t := by
    intro ps hps
    obtain ⟨name, -, h⟩ := mem_of_mapM hitems hps
    have hitem : ∀ f attr output, SelectItem.column name = .aggregate f attr output →
        t.Stored attr := nofun
    exact SelectItem.written hs ht hitem h
  have hbelow := (hi.includes hf).written_columnsAll .self hbelow
  have hprimary := ColumnRef.Written.primaryKey hs ht .self
  refine Batch.forall_columns (List.forall_mem_append.mpr ⟨hitems, hbelow⟩) ?_
    ((hi.includes hf).written_joinsAll hs ht .self hjoins) ?_ hprimary
    (Filter.written_condition? (fun f => hi.filter hf) .self hfilter)
  · cases hlink : assoc.usedLink? with
    | none => simp [linkColumns]
    | some link =>
      have hother := ColumnRef.Written.link .self hparent hassoc htarget hlink (.inr rfl)
      simpa [linkColumns, hprimary] using hother
  · cases hlink : assoc.usedLink? with
    | none => exact .of_correlatesOn hs ht .self (.target hparent hassoc htarget)
    | some link => exact .link .self hparent hassoc htarget hlink (.inl rfl)

end

theorem Include.Below.parent_mem {ns : List Include} {i : Include} (hm : m ∈ s.models)
    (h : Below s m ns parent i) : parent ∈ s.models := by
  induction h with
  | here => exact hm
  | under _ hf _ ih => exact ih (Schema.mem_of_follow hf)

/-- Every plan has a statement. The columns that it names are those of stored attributes and of link
tables, unless an association correlates on a computed attribute, or the order is by a computed one
that lists something else. So it is with the statements of separate includes. -/
theorem written_of_build {p : Plan} (hs : Schema.build config = .ok s) (h : Plan.Planned s p) :
    ∃ m q, s.model p.model = .ok m ∧ p.select s = .ok q ∧
      (∀ ref ∈ Sql.columns q.sql, ref.Written s m) ∧
      ∀ parent i, Include.Below s m p.includes parent i → i.separate = true →
        ∃ assoc t, s.follow parent i.name = .ok (assoc, t) ∧
          ∀ keys b, i.batch s parent keys = .ok b →
            ∀ ref ∈ Sql.columns b.sql, ref.Written s t := by
  obtain ⟨_, hwritable⟩ := h.writable (Schema.sound_of_build hs)
  obtain ⟨st, hst⟩ := hwritable.exists_statement
  obtain ⟨q, hq, -⟩ := bind_eq_ok.mp hst
  obtain ⟨m, hp⟩ := h.regular (Filter.filterClosed_comparesStored hs)
  refine ⟨m, q, hp.model, hq, Plan.written_select hs hp (h.named hp.model) hq,
    fun parent i hi _ => ?_⟩
  have hroot := hi.rooted hp.includes
  have hparent := hi.parent_mem (Schema.mem_of_model hp.model)
  obtain ⟨assoc, t, hf⟩ := hroot.exists_follow
  exact ⟨assoc, t, hf, fun keys b hb => Include.written_batch hs hroot hparent hf hb⟩

/-- The authors and their books are read by columns of stored attributes. -/
theorem authorPlan_written : ∃ m q, librarySchema.model authorPlan.model = .ok m ∧
    authorPlan.select librarySchema = .ok q ∧
    (∀ ref ∈ Sql.columns q.sql, ref.Written librarySchema m) ∧
    ∀ parent i, Include.Below librarySchema m authorPlan.includes parent i → i.separate = true →
      ∃ assoc t, librarySchema.follow parent i.name = .ok (assoc, t) ∧
        ∀ keys b, i.batch librarySchema parent keys = .ok b →
          ∀ ref ∈ Sql.columns b.sql, ref.Written librarySchema t :=
  written_of_build build_library (.rootList rootList_authors)

/-! ### Orders with the customer inside a document -/

def receipts : Config where
  models := [
    { name := "Order"
      attributes := [{ name := "id", type := "INTEGER", primaryKey := true },
        { name := "data", type := "JSONB" },
        { name := "customerId", type := "INTEGER"
          computed := some ⟨"(data->>'customer')::int", []⟩ }]
      associations := [{ kind := .belongsTo, target := "Customer", foreignKey := "customerId" }] },
    { name := "Customer"
      attributes := [{ name := "id", type := "INTEGER", primaryKey := true },
        { name := "lastName", type := "STRING", column := some "last_name" },
        { name := "fullName", type := "STRING", computed := some ⟨"last_name", ["surname"]⟩ }] }]

def receiptsSchema : Schema := ⟨receipts.models.map (·.resolve), receipts.options⟩

theorem build_receipts : Schema.build receipts = .ok receiptsSchema := by decide

def receiptsList : Field where
  name := "list"
  selections := [.field "id" none [] [], .field "customer" none [] [.field "lastName" none [] []]]

def receiptsPlan : Plan where
  model := "Order"
  attributes := [.column "id", .column "customerId"]
  includes := [{
    target := "Customer"
    name := "customer"
    kind := .belongsTo
    attributes := ["lastName"] }]

theorem rootList_receipts :
    Query.rootList receiptsSchema "Order" receiptsList {} = .ok receiptsPlan := by
  rfl

def customersByName : Field where
  name := "list"
  arguments := [("query",
    .object [("order", .list [.list [.scalar (.str "fullName"), .scalar (.str "ASC")]])])]
  selections := [.field "id" none [] []]

def customersPlan : Plan where
  model := "Customer"
  attributes := [.column "id"]
  order := [⟨.column [] "Customer" "surname", .asc⟩]

theorem rootList_customersByName :
    Query.rootList receiptsSchema "Customer" customersByName {} = .ok customersPlan := by
  rfl

/-- Orders have no column for their customer, by which they are joined, and customers none for the
surname, by which they are ordered. -/
theorem receipts_not_stored : Schema.build receipts = .ok receiptsSchema ∧
    Query.rootList receiptsSchema "Order" receiptsList {} = .ok receiptsPlan ∧
    (∃ m q, receiptsSchema.model "Order" = .ok m ∧ receiptsPlan.select receiptsSchema = .ok q ∧
      ⟨m.name, "customerId"⟩ ∈ Sql.columns q.sql ∧ ¬m.HasColumn "customerId") ∧
    Query.rootList receiptsSchema "Customer" customersByName {} = .ok customersPlan ∧
    ∃ m q, receiptsSchema.model "Customer" = .ok m ∧ customersPlan.select receiptsSchema = .ok q ∧
      ⟨m.name, "surname"⟩ ∈ Sql.columns q.sql ∧ ¬m.HasColumn "surname" := by
  refine ⟨build_receipts, rootList_receipts, ⟨_, _, rfl, rfl, ?_, ?_⟩, rootList_customersByName,
    _, _, rfl, rfl, ?_, ?_⟩
  · decide
  · decide
  · decide
  · decide

end RelQuery

import RelQuery.Proofs.Include.Joined
import RelQuery.Proofs.Plan.Compose
import RelQuery.Proofs.Statement.Tables

/-!
# Scopes of composed plans

Filters and orders go through associations. In a composed plan each of their paths runs through
joined nodes, and so every table that the statement names in its WHERE and ORDER BY clauses is one
of its FROM clause.
-/

namespace RelQuery

/-! ## Paths of leaves -/

namespace Filter

/-- The path of a comparison, and whether it is negated. -/
def reach? : Filter → Option (AttributePath × Bool)
  | .comparison c => some (c.path, c.negated)
  | .computed c => some (c.path, c.negated)
  | _ => none

variable {f l : Filter} {fs : List Filter} {path : AttributePath} {negated : Bool}
  {hops : List String}

theorem mem_pathsAll (hf : f ∈ fs) (h : path ∈ f.paths) : path ∈ pathsAll fs := by
  induction fs with
  | nil => cases hf
  | cons g fs ih =>
    rcases List.mem_cons.mp hf with rfl | hf
    · exact List.mem_append_left _ h
    · exact List.mem_append_right _ (ih hf)

theorem mem_negatedHopsAll (hf : f ∈ fs) (h : hops ∈ f.negatedHops) :
    hops ∈ negatedHopsAll fs := by
  induction fs with
  | nil => cases hf
  | cons g fs ih =>
    rcases List.mem_cons.mp hf with rfl | hf
    · exact List.mem_append_left _ h
    · exact List.mem_append_right _ (ih hf)

theorem mem_paths (hl : l ∈ f.leaves) (h : l.reach? = some (path, negated)) : path ∈ f.paths := by
  induction f with
  | logical k fs ih =>
    obtain ⟨f, hf, hl⟩ := mem_leaves_logical.mp hl
    exact mem_pathsAll hf (ih f hf hl)
  | not f ih => exact ih hl
  | _ =>
    cases List.mem_singleton.mp hl
    cases h <;> exact List.mem_singleton_self _

theorem mem_negatedHops (hl : l ∈ f.leaves) (h : l.reach? = some (path, true))
    (hne : path.hops ≠ []) : path.hops ∈ f.negatedHops := by
  induction f with
  | logical k fs ih =>
    obtain ⟨f, hf, hl⟩ := mem_leaves_logical.mp hl
    exact mem_negatedHopsAll hf (ih f hf hl)
  | not f ih => exact ih hl
  | raw sql =>
    cases List.mem_singleton.mp hl
    cases h
  | _ =>
    cases List.mem_singleton.mp hl
    simp only [reach?, Option.some.injEq, Prod.mk.injEq] at h
    obtain ⟨rfl, hn⟩ := h
    simp [negatedHops, hn, hne]

end Filter

/-! ## Passes -/

namespace Include

variable {s : Schema} {m : Model} {ns ns' : List Include} {hops : List String} {inner : Bool}

theorem joined_foldlM_ensurePath {α : Type} {required : Bool} (hopsOf : α → List String)
    {as : List α}
    (h : as.foldlM (fun ns a => ensurePath s required (hopsOf a) m ns) ns = .ok ns') :
    (∀ a ∈ as, Joined s required m ns' (hopsOf a)) ∧
    ∀ {inner hops}, Joined s inner m ns hops → Joined s inner m ns' hops := by
  induction as generalizing ns with
  | nil =>
    cases h
    exact ⟨nofun, id⟩
  | cons a as ih =>
    obtain ⟨ns₁, h₁, h⟩ := bind_eq_ok.mp h
    obtain ⟨has, hkeep⟩ := ih h
    exact ⟨List.forall_mem_cons.mpr ⟨hkeep (.of_ensurePath h₁), has⟩,
      fun hj => hkeep (hj.ensurePath h₁)⟩

/-- After a filter is attached, the paths of its comparisons are joined, of negated ones by inner
joins. -/
theorem joined_attachFilter {f l : Filter} {path : AttributePath} {negated : Bool}
    (h : attachFilter s m f ns = .ok ns') (hl : l ∈ f.leaves)
    (hr : l.reach? = some (path, negated)) : Joined s negated m ns' path.hops := by
  obtain ⟨ns₁, h₁, h⟩ := bind_eq_ok.mp h
  have hpaths := (joined_foldlM_ensurePath AttributePath.hops h₁).1
  obtain ⟨hnegated, hkeep⟩ := joined_foldlM_ensurePath id h
  cases negated with
  | false => exact hkeep (hpaths path (Filter.mem_paths hl hr))
  | true =>
    by_cases hne : path.hops = []
    · rw [hne]
      exact .nil
    · exact hnegated path.hops (Filter.mem_negatedHops hl hr hne)

end Include

/-! ## Tables of statements -/

/-- The names that tables have in the FROM clause of a statement. -/
def Select.tables (q : Select) : List String := q.name :: q.joins.map (·.name)

/-- A statement as it is written: each of its tables gets its name between FROM and WHERE. -/
def Select.Written (q : Select) : Prop :=
  ∃ columns source rest, q.sql = .text "SELECT " :: columns ++ .text " FROM " :: source ++ rest ∧
    (∀ name ∈ q.tables, ∃ table, [.name table, .text " AS ", .name name] <:+: source) ∧
    (∀ c, q.condition = some c → .text " WHERE " :: c.sql <+: rest) ∧
    (q.order ≠ [] → .text " ORDER BY " :: Sql.join ", " q.order <:+: rest)

/-- The tables that a statement on `m` names in its WHERE and ORDER BY clauses are those of its FROM
clause, and so are those that text written for a comparison of the filter names. -/
structure Select.Scoped (s : Schema) (m : Model) (filter : Option Filter) (q : Select) : Prop where
  name : q.name = m.name
  written : q.Written
  condition : ∀ c, q.condition = some c → Sql.tables c.sql ⊆ q.tables
  atoms : ∀ c, q.condition = some c → ∀ a ∈ c.atoms, ∃ f, filter = some f ∧
    ∃ l ∈ f.leaves, l.Atom s m q.name a ∧
      ∀ path negated, l.reach? = some (path, negated) → joinName q.name path.hops ∈ q.tables
  order : ∀ ps ∈ q.order, Sql.tables ps ⊆ q.tables

theorem Join.named_infix (j : Join) :
    [.name j.table, .text " AS ", .name j.name] <:+: j.sql := by
  have hsource : [.name j.table, .text " AS ", .name j.name] <:+: j.source := by
    unfold source
    split
    · exact List.infix_rfl
    · rename_i linkTable link left right _
      exact ⟨[.text "(", .name linkTable, .text " AS ", .name link, .text " INNER JOIN "],
        [.text " ON ", left.piece, .text " = ", right.piece, .text ")"], rfl⟩
  exact hsource.trans ⟨[_], .text " ON " :: j.on, rfl⟩

theorem Select.written (q : Select) : q.Written := by
  refine ⟨Sql.join ", " q.columns, Sql.named [.name q.table] q.name ++ q.joins.flatMap (·.sql),
    q.condition.elim [] (.text " WHERE " :: ·.sql) ++ (clause " GROUP BY " (q.group.map ([·.piece]))
      ++ (clause " ORDER BY " q.order ++ (number " LIMIT " q.limit ++ number " OFFSET " q.offset))),
    ?_, fun name hname => ?_, fun c hc => ?_, fun horder => ?_⟩
  · cases h : q.condition <;> simp [sql, h]
  · rcases List.mem_cons.mp hname with rfl | hname
    · exact ⟨q.table, (List.prefix_append _ _).isInfix⟩
    · obtain ⟨j, hj, rfl⟩ := List.mem_map.mp hname
      have hsql : j.sql <:+: q.joins.flatMap (·.sql) :=
        List.infix_of_mem_flatten (List.mem_map_of_mem hj)
      exact ⟨j.table, (j.named_infix.trans hsql).trans (List.suffix_append _ _).isInfix⟩
  · rw [hc]
    exact List.prefix_append _ _
  · have hclause : clause " ORDER BY " q.order = .text " ORDER BY " :: Sql.join ", " q.order :=
      if_neg (by simpa using horder)
    rw [hclause]
    exact ((List.prefix_append _ _).isInfix.trans (List.suffix_append _ _).isInfix).trans
      (List.suffix_append _ _).isInfix

namespace Plan

variable {s : Schema} {m : Model} {p : Plan} {selection : PartialPlan} {filter : Option Filter}
  {args : Arguments} {orders : List (String × Direction)} {entries : List OrderEntry}
  {ns ns' : List Include} {hops : List String} {model column : String}

theorem joined_foldlM_attachOrder (h : entries.foldlM (attachOrder s m) ns = .ok ns') :
    (∀ e ∈ entries, ∀ hops model column, e.target = .column hops model column →
      Include.Joined s false m ns' hops) ∧
    ∀ {inner hops}, Include.Joined s inner m ns hops → Include.Joined s inner m ns' hops := by
  induction entries generalizing ns with
  | nil =>
    cases h
    exact ⟨nofun, id⟩
  | cons e entries ih =>
    obtain ⟨ns₁, h₁, h⟩ := bind_eq_ok.mp h
    obtain ⟨hes, hkeep⟩ := ih h
    unfold attachOrder at h₁
    split at h₁
    · rename_i hops model column he
      refine ⟨List.forall_mem_cons.mpr ⟨fun hops' model' column' he' => ?_, hes⟩,
        fun hj => hkeep (hj.ensurePath h₁)⟩
      cases he.symm.trans he'
      exact hkeep (.of_ensurePath h₁)
    · rename_i sql he
      cases h₁
      refine ⟨List.forall_mem_cons.mpr ⟨fun hops' model' column' he' => ?_, hes⟩, hkeep⟩
      cases he.symm.trans he'

theorem joined_attachOrders (h : attachOrders s m orders ns = .ok (entries, ns')) :
    (∀ e ∈ entries, ∀ hops model column, e.target = .column hops model column →
      Include.Joined s false m ns' hops) ∧
    ∀ {inner hops}, Include.Joined s inner m ns hops → Include.Joined s inner m ns' hops := by
  induction orders generalizing entries ns with
  | nil =>
    cases h
    exact ⟨nofun, id⟩
  | cons order orders ih =>
    obtain ⟨es, -, h⟩ := bind_eq_ok.mp h
    obtain ⟨ns₁, h₁, h⟩ := bind_eq_ok.mp h
    obtain ⟨⟨later, ns₂⟩, h₂, h⟩ := bind_eq_ok.mp h
    cases h
    obtain ⟨hes, hkeep₁⟩ := joined_foldlM_attachOrder h₁
    obtain ⟨hlater, hkeep⟩ := ih h₂
    refine ⟨List.forall_mem_append.mpr ⟨fun e he hops model column ht => ?_, hlater⟩,
      fun hj => hkeep (hkeep₁ hj)⟩
    exact hkeep (hes e he hops model column ht)

theorem joined_pageNodes {order : List OrderEntry} {inner : Bool}
    (hj : Include.Joined s inner m ns hops) (hp : hops ∈ pinnedPaths filter order) :
    Include.Joined s inner m (pageNodes filter args order ns) hops := by
  unfold pageNodes
  split
  · exact hj.splitPageAll hp
  · exact hj

theorem mem_pinnedPaths_of_filter {f : Filter} {path : AttributePath} {order : List OrderEntry}
    (h : path ∈ f.paths) : path.hops ∈ pinnedPaths (some f) order :=
  List.mem_append_left _ (List.mem_map_of_mem h)

theorem mem_pinnedPaths_of_order {e : OrderEntry} {order : List OrderEntry} (he : e ∈ order)
    (ht : e.target = .column hops model column) : hops ∈ pinnedPaths filter order :=
  List.mem_append_right _ (List.mem_filterMap.mpr ⟨e, he, by rw [ht]⟩)

/-! ## Joined plans -/

/-- The paths of a filter and of the order of a plan on `m` run through joined nodes, those of
negated comparisons through inner joins. -/
structure PathsJoined (s : Schema) (m : Model) (filter : Option Filter) (p : Plan) : Prop where
  filter : ∀ f, filter = some f → ∀ l ∈ f.leaves, ∀ path negated,
    l.reach? = some (path, negated) → Include.Joined s negated m p.includes path.hops
  order : ∀ e ∈ p.order, ∀ hops model column, e.target = .column hops model column →
    Include.Joined s false m p.includes hops

/-- A composition joins the paths of its filter and of its order. -/
theorem Composition.pathsJoined (c : Composition s selection filter args p) :
    p.PathsJoined s c.m filter := by
  obtain ⟨m, filtered, order, ordered, attributes, lowered, includes, hm, hfiltered, hordered,
    -, -, hincludes, rfl⟩ := c
  obtain ⟨horder, hkeep⟩ := joined_attachOrders hordered
  refine ⟨fun f hf l hl path negated hr => ?_, fun e he hops model column ht => ?_⟩
  · cases hf
    have hj := hkeep (Include.joined_attachFilter hfiltered hl hr)
    exact (joined_pageNodes hj (mem_pinnedPaths_of_filter (Filter.mem_paths hl hr))).lowerAll
      hincludes
  · change e ∈ orderOf m args order at he
    unfold orderOf at he
    split at he
    · obtain ⟨key, -, rfl⟩ := List.mem_map.mp he
      cases ht
      exact .nil
    · have hj := horder e he hops model column ht
      exact (joined_pageNodes hj (mem_pinnedPaths_of_order he ht)).lowerAll hincludes

/-! ## Expressions in an order -/

/-- An expression that a plan on `m` is ordered by is that of a computed attribute, its columns
behind the name of `m`. -/
def ExpressionOf (m : Model) (sql : String) : Prop :=
  ∃ a ∈ m.attributes, ∃ c, a.computed = some c ∧
    sql = "(" ++ Computed.qualify m m.name c.expression ++ ")"

/-- What a plan on `m` can be ordered by: a stored attribute behind hops, a column that a computed
attribute of `m` lists, or the expression of one. -/
inductive TargetOf (s : Schema) (m : Model) : OrderTarget → Prop
  | stored {n : Model} {hops : List String} {name : String} {a : Attribute} :
      s.modelAt m hops = .ok n → n.attribute? name = some a → a.computed = none →
      TargetOf s m (.column hops n.name a.column)
  | listed {a : Attribute} {c : Computed} {name : String} : a ∈ m.attributes →
      a.computed = some c → name ∈ c.columns → TargetOf s m (localColumn m (m.columnOf name))
  | expression {sql : String} : ExpressionOf m sql → TargetOf s m (.expression sql)

variable {target : OrderTarget}

theorem targetOf_attributeTargets {a : Attribute} {name : String}
    (ha : m.attribute? name = some a) (h : target ∈ attributeTargets m a) :
    TargetOf s m target := by
  have hmem := List.mem_of_find?_eq_some ha
  unfold attributeTargets at h
  split at h
  · rename_i hc
    cases List.mem_singleton.mp h
    exact .stored rfl ha hc
  · rename_i c hc
    split at h
    · cases List.mem_singleton.mp h
      exact .expression ⟨a, hmem, c, hc, rfl⟩
    · obtain ⟨name, hname, rfl⟩ := List.mem_map.mp h
      exact .listed hmem hc hname

theorem targetOf_pathTarget {field : String} (h : pathTarget s m field = .ok target) :
    TargetOf s m target := by
  unfold pathTarget at h
  split at h
  · cases h
  · split at h
    · cases h
    · obtain ⟨r, hr, h⟩ := bind_eq_ok.mp h
      split at h
      · cases h
      · rename_i hstored
        cases h
        refine .stored (Path.modelAt_walk hr) (Path.attribute?_walk hr).1 ?_
        simpa [Attribute.isComputed] using (Bool.or_eq_false_iff.mp (Bool.eq_false_iff.mpr hstored)).2

theorem targetOf_orderEntries {field : String} {direction : Direction} {e : OrderEntry}
    (h : orderEntries s m field direction = .ok entries) (he : e ∈ entries) :
    TargetOf s m e.target := by
  unfold orderEntries at h
  split at h
  · rename_i a ha
    cases h
    obtain ⟨target, htarget, rfl⟩ := List.mem_map.mp he
    exact targetOf_attributeTargets ha htarget
  · obtain ⟨target, htarget, h⟩ := bind_eq_ok.mp h
    cases h
    cases List.mem_singleton.mp he
    exact targetOf_pathTarget htarget

theorem targetOf_attachOrders {e : OrderEntry}
    (h : attachOrders s m orders ns = .ok (entries, ns')) (he : e ∈ entries) :
    TargetOf s m e.target := by
  induction orders generalizing entries ns with
  | nil =>
    cases h
    cases he
  | cons order orders ih =>
    obtain ⟨es, hes, h⟩ := bind_eq_ok.mp h
    obtain ⟨ns₁, -, h⟩ := bind_eq_ok.mp h
    obtain ⟨⟨later, ns₂⟩, h₂, h⟩ := bind_eq_ok.mp h
    cases h
    rcases List.mem_append.mp he with he | he
    · exact targetOf_orderEntries hes he
    · exact ih h₂ he

theorem Composition.expressionOf (c : Composition s selection filter args p) {e : OrderEntry}
    {sql : String} (he : e ∈ p.order) (ht : e.target = .expression sql) :
    ExpressionOf c.m sql := by
  obtain ⟨m, filtered, order, ordered, attributes, lowered, includes, hm, hfiltered, hordered,
    -, -, hincludes, rfl⟩ := c
  change e ∈ orderOf m args order at he
  unfold orderOf at he
  split at he
  · obtain ⟨key, -, rfl⟩ := List.mem_map.mp he
    cases ht
  · cases ht ▸ targetOf_attachOrders hordered he with
    | expression h => exact h

/-! ## Statements -/

/-- A path that is joined leads to a table of the statement. -/
theorem mem_tables {q : Select} {inner : Bool} (hname : q.name = m.name)
    (hjoins : Include.joinsAll s m m.name p.includes = .ok q.joins)
    (hj : Include.Joined s inner m p.includes hops) : joinName q.name hops ∈ q.tables := by
  by_cases hne : hops = []
  · rw [hne]
    exact List.mem_cons_self
  · rw [hname]
    exact List.mem_cons_of_mem _ (hj.mem_joinsAll hne hjoins)

/-- An order by columns behind joined paths names tables of the statement. -/
theorem tables_order {q : Select} (hname : q.name = m.name)
    (hjoins : Include.joinsAll s m m.name p.includes = .ok q.joins)
    (hj : ∀ e ∈ p.order, ∀ hops model column, e.target = .column hops model column →
      Include.Joined s false m p.includes hops)
    (horder : q.order ⊆ p.order.map (·.sql m.name)) : ∀ ps ∈ q.order, Sql.tables ps ⊆ q.tables := by
  intro ps hps
  obtain ⟨e, he, rfl⟩ := List.mem_map.mp (horder hps)
  unfold OrderEntry.sql
  cases ht : e.target with
  | column hops model column =>
    have hmem := mem_tables hname hjoins (hj e he hops model column ht)
    simpa [hname] using hmem
  | expression sql => simp

theorem Composition.plan_model (c : Composition s selection filter args p) :
    s.model p.model = .ok c.m :=
  (congrArg (fun p => s.model p.model) c.plan_eq).trans (Schema.model_name c.model_eq)

theorem Composition.rel_lowered (c : Composition s selection filter args p) :
    Option.Rel (fun f g => f.lower s c.m c.m.name = .ok g) filter c.lowered := by
  have hlowered := c.lowered_eq
  split at hlowered
  · obtain ⟨g, hg, heq⟩ := map_eq_ok.mp hlowered
    exact heq ▸ .some hg
  · exact Except.ok.inj hlowered ▸ .none

theorem Composition.lower_eq {g : Filter} (c : Composition s selection filter args p)
    (hg : p.filter = some g) : ∃ f, filter = some f ∧ f.lower s c.m c.m.name = .ok g := by
  rw [congrArg Plan.filter c.plan_eq] at hg
  obtain ⟨g', hl, hproper⟩ := Option.bind_eq_some_iff.mp hg
  cases Filter.proper?_eq_some hproper
  obtain ⟨f, hf, hg⟩ := exists_left_of_rel c.rel_lowered hl
  exact ⟨f, hf, hg⟩

/-- Every atom of the condition of a composed plan is written for a leaf of its filter. -/
theorem Composition.atom_of_condition (c : Composition s selection filter args p) {g : Filter}
    {cond : Condition} {a : Sql} (hg : p.filter = some g)
    (h : g.condition s c.m c.m.name = .ok cond) (ha : a ∈ cond.atoms) :
    ∃ f, filter = some f ∧ ∃ l ∈ f.leaves, l.Atom s c.m c.m.name a := by
  obtain ⟨f, hf, hlower⟩ := c.lower_eq hg
  obtain ⟨l, hl, ha⟩ := Filter.atom_of_condition h ha
  exact ⟨f, hf, Filter.atom_of_lower hlower hl ha⟩

theorem Composition.scoped (c : Composition s selection filter args p) {q : Select}
    (h : p.select s = .ok q) : q.Scoped s c.m filter := by
  obtain ⟨m, hm, hname, hjoins, hcondition, horder⟩ := select_eq_ok h
  cases c.plan_model.symm.trans hm
  have hpaths := c.pathsJoined
  have hatoms : ∀ cond, q.condition = some cond → ∀ a ∈ cond.atoms, ∃ f, filter = some f ∧
      ∃ l ∈ f.leaves, l.Atom s c.m q.name a ∧
        ∀ path negated, l.reach? = some (path, negated) → joinName q.name path.hops ∈ q.tables := by
    intro cond hcond a ha
    obtain ⟨g, hg, hcond⟩ := exists_left_of_rel (Filter.rel_condition? hcondition) hcond
    obtain ⟨f, hf, l, hl, ha⟩ := c.atom_of_condition hg hcond ha
    exact ⟨f, hf, l, hl, hname ▸ ha, fun path negated hr =>
      mem_tables hname hjoins (hpaths.filter f hf l hl path negated hr)⟩
  refine ⟨hname, q.written, fun cond hcond => ?_, hatoms, fun ps hps => ?_⟩
  · rw [Sql.tables, Condition.filterMap_sql]
    intro table ht
    obtain ⟨a, ha, ht⟩ := List.mem_flatMap.mp ht
    obtain ⟨f, hf, l, hl, hatom, hmem⟩ := hatoms cond hcond a ha
    cases hatom with
    | comparison hcolumn hsql =>
      obtain ⟨t, -, hcolumn⟩ := bind_eq_ok.mp hcolumn
      cases hcolumn
      cases List.mem_singleton.mp (Comparison.tables_sql hsql ht)
      exact hmem _ _ rfl
    | computed => simp at ht
    | raw => simp at ht
  · exact tables_order hname hjoins hpaths.order horder ps hps

/-- In a composed plan the paths of the filter and of the order run through joined nodes, and every
table that its statement names in a condition or an order is in its FROM clause. -/
theorem scoped_of_compose (h : compose s selection filter args = .ok p) :
    ∃ m, s.model p.model = .ok m ∧ p.PathsJoined s m filter ∧
      (∀ e ∈ p.order, ∀ sql, e.target = .expression sql → ExpressionOf m sql) ∧
      ∀ q, p.select s = .ok q → q.Scoped s m filter := by
  obtain ⟨c⟩ := composition h
  exact ⟨c.m, c.plan_model, c.pathsJoined, fun e he sql ht => c.expressionOf he ht,
    fun q hq => c.scoped hq⟩

/-! ### A page of nodes with children, in the order of these -/

def forest : Schema where
  models := [⟨"Node", "nodes", [⟨"id", "id", .integer, false, true, none⟩,
    ⟨"parent", "parent", .integer, true, false, none⟩],
    [⟨"children", .hasMany, "Node", "Node", "parent", none, none⟩]⟩]
  options := {}

def childrenNode (required : Bool) : Include where
  target := "Node"
  name := "children"
  kind := .hasMany
  attributes := ["id"]
  required := required

def hasChildren : Filter :=
  .comparison ⟨⟨["children"], "id", []⟩, .is, .plain .null, some .integer, true⟩

def forestPlan : Plan where
  model := "Node"
  attributes := [.column "id"]
  includes := [childrenNode true]
  filter := some hasChildren
  order := [⟨.column ["children"] "Node" "id", .asc⟩]
  limit := some 10

theorem compose_forestPlan : compose forest ⟨"Node", ["id"], ["id"], [childrenNode false]⟩
    (some hasChildren) { order := [("children__id", .asc)], limit := some 10 } =
      .ok forestPlan := by
  rfl

/-- The filter and the order name one table below the nodes, and its inner join introduces it. -/
theorem forestPlan_scoped : ∃ m, forest.model forestPlan.model = .ok m ∧
    forestPlan.PathsJoined forest m (some hasChildren) ∧
    (∀ e ∈ forestPlan.order, ∀ sql, e.target = .expression sql → ExpressionOf m sql) ∧
    ∃ q, forestPlan.select forest = .ok q ∧ q.Scoped forest m (some hasChildren) ∧
      q.sql.statement.text = "SELECT \"Node\".\"id\" AS \"id\", " ++
        "\"Node->children\".\"id\" AS \"children.id\" FROM \"nodes\" AS \"Node\" " ++
        "INNER JOIN \"nodes\" AS \"Node->children\" " ++
        "ON \"Node->children\".\"parent\" = \"Node\".\"id\" " ++
        "WHERE NOT (\"Node->children\".\"id\" IS NULL) " ++
        "ORDER BY \"Node->children\".\"id\" ASC LIMIT 10" := by
  obtain ⟨m, hm, hpaths, hexpressions, hscoped⟩ := scoped_of_compose compose_forestPlan
  obtain ⟨q, hq⟩ : ∃ q, forestPlan.select forest = .ok q := ⟨_, rfl⟩
  refine ⟨m, hm, hpaths, hexpressions, q, hq, hscoped q hq, ?_⟩
  cases hq
  decide +kernel

end Plan

end RelQuery

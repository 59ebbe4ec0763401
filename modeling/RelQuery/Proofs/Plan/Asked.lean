import RelQuery.Proofs.Plan.Pages

/-!
# The joins that a query asks for

The filter of a query and the associations that its rows must have nothing of go through joins. Such
a join has a condition of its own exactly if the selection gives the same association a filter, and
then the rows that match depend on what is selected below them. Without it the join is that of the
count of the query.
-/

namespace RelQuery

open Include (Forest JoinedAlong bareAt?)

variable {s : Schema} {Q : Model → Filter → Prop} {m : Model} {ns : List Include}

/-! ## Joins of nodes -/

namespace Include

section
variable {assoc : Association} {parent target : Model} {table : String} {required inner : Bool}
  {condition : Option Condition}

/-- An inner join is an outer one but for being inner. -/
theorem joinOf_required : joinOf assoc parent target table inner condition =
    { joinOf assoc parent target table required condition with
      required := (joinOf assoc parent target table inner condition).required } := by
  unfold joinOf
  dsimp only
  split <;> rfl

end

/-- The join of a node at the end of a joined path, with a condition only if the node has a
filter. -/
theorem exists_joinOf {table hop : String} {above : List String} {n : Include} {js : List Join}
    (hns : Forest s Q m ns) (h : joinsAll s m table ns = .ok js)
    (hj : JoinedAlong ns (above ++ [hop])) (hn : bareAt? (above ++ [hop]) ns = some n) :
    ∃ parent assoc t condition, s.modelAt m above = .ok parent ∧
      s.follow parent hop = .ok (assoc, t) ∧ (n.filter = none → condition = none) ∧
      joinOf assoc parent t (joinName table above) n.required condition ∈ js := by
  induction above generalizing m table ns js with
  | nil =>
    obtain ⟨c, hc, rfl⟩ := Option.map_eq_some_iff.mp hn
    have hc : child? hop ns = some c := hc
    obtain ⟨_, hc', hs, -⟩ := joinedAlong_cons.mp hj
    cases hc.symm.trans hc'
    obtain ⟨here, hhere, hsub⟩ := joins_of_mem h (mem_of_child? hc)
    obtain ⟨assoc, t, hf⟩ := (hns.rooted_of_child? hc).exists_follow
    obtain ⟨condition, below, hcondition, -, rfl⟩ := joins_eq_ok hhere hs hf
    refine ⟨m, assoc, t, condition, rfl, name_of_child? hc ▸ hf, fun hnone => ?_,
      hsub List.mem_cons_self⟩
    refine Option.eq_none_iff_forall_ne_some.mpr fun f hf => ?_
    obtain ⟨g, hg, -⟩ := exists_left_of_rel (Filter.rel_condition? hcondition) hf
    cases hnone.symm.trans hg
  | cons name above ih =>
    obtain ⟨c, hc, hs, hbelow⟩ := joinedAlong_cons.mp hj
    obtain ⟨here, hhere, hsub⟩ := joins_of_mem h (mem_of_child? hc)
    have hroot := hns.rooted_of_child? hc
    obtain ⟨assoc, t, hf⟩ := hroot.exists_follow
    obtain ⟨condition, below, -, hjoins, rfl⟩ := joins_eq_ok hhere hs hf
    have happend : bareAt? ([name] ++ (above ++ [hop])) ns = bareAt? (above ++ [hop]) c.includes :=
      bareAt?_append hc (by simp)
    have hn : bareAt? (above ++ [hop]) c.includes = some n := happend.symm.trans hn
    obtain ⟨parent, assoc', t', condition', hmodel, hfollow, hcondition, hmem⟩ :=
      ih (hroot.includes hf) hjoins hbelow hn
    have hname := name_of_child? hc
    refine ⟨parent, assoc', t', condition', ?_, hfollow, hcondition, ?_⟩
    · exact Schema.modelAt_cons.mpr ⟨assoc, t, hname ▸ hf, hmodel⟩
    · rw [hname] at hmem
      exact hsub (List.mem_cons_of_mem _ hmem)

end Include

namespace Query

open Plan (OrdersAlong startNodes)

variable {p cp : Plan} {selection : PartialPlan} {args : Arguments} {a : Assembly} {model : String}
  {field : Field} {info : ExecutionInfo} {path hops : List String}

/-- A node that a query asks for has a filter if the selection gives it one. -/
theorem filter_of_asked (ha : Assembled s m selection args a) (hfin : Finishes s m args a p)
    (hasks : Asks s m args hops) (hne : path ≠ []) (hpath : path <+: hops) :
    JoinedAlong p.includes path ∧ ∃ n, bareAt? path p.includes = some n ∧
      (n.filter.isSome = true ↔ ∃ n₀, bareAt? path (startNodes selection args) = some n₀ ∧
        n₀.filter.isSome = true) := by
  have hleads : Leads s m args a.order path := ⟨hops, .inl hasks, hpath⟩
  have hjoined : JoinedAlong p.includes path := by
    refine (hfin.joined path).mpr ⟨ha.joined_of_leads hleads, fun _ above habove n _ hcut => ?_⟩
    obtain ⟨hops', hhops', hprefix⟩ :=
      (Assembly.pinned_iff ha.eq).mpr ⟨hops, .inl hasks, habove.trans hpath⟩
    exact hcut.free hops' hhops' hprefix
  obtain ⟨n', hn', -⟩ := hjoined path hne (List.prefix_refl path)
  obtain ⟨n, hn, filter, separate, rfl, hfilter, -⟩ := hfin.exists_node hn'
  refine ⟨hjoined, _, hn', ?_⟩
  change filter.isSome = true ↔ _
  rw [hfilter]
  rcases ha.extends_nodes.exists_node hn with ⟨n₀, inner, hn₀, rfl⟩ | ⟨hnone, hhop, -⟩
  · simp [hn₀, Include.mark]
  · simp [hnone, hhop.plain.1]

/-- The join of a node that a query asks for. -/
theorem join_of_asked {n : Include} {q : Select} (hp : p.Regular s Q m)
    (hq : p.select s = .ok q) (hjoined : JoinedAlong p.includes path) (hne : path ≠ [])
    (hn : bareAt? path p.includes = some n) (hfilter : n.filter = none) :
    ∃ above hop parent assoc t, path = above ++ [hop] ∧ s.modelAt m above = .ok parent ∧
      s.follow parent hop = .ok (assoc, t) ∧
      Include.joinOf assoc parent t (joinName m.name above) n.required none ∈ q.joins := by
  obtain ⟨above, hop, rfl⟩ : ∃ above hop, path = above ++ [hop] :=
    ⟨path.dropLast, path.getLast hne, (List.dropLast_append_getLast hne).symm⟩
  obtain ⟨m', hm', -, hjoins, -, -⟩ := Plan.select_eq_ok hq
  cases hp.model.symm.trans hm'
  obtain ⟨parent, assoc, t, condition, hmodel, hfollow, hcondition, hmem⟩ :=
    Include.exists_joinOf hp.includes hjoins hjoined hn
  rw [hcondition hfilter] at hmem
  exact ⟨above, hop, parent, assoc, t, rfl, hmodel, hfollow, hmem⟩

/-- A list and its count have one filter. A join that this filter or an excluded association goes
through has a condition of its own exactly if the selection gives the association a filter; without
one it is the join of the count, up to being an inner one. -/
theorem joins_of_asked (hm : s.model model = .ok m)
    (hsel : Include.plan s info model field.selections none [] = .ok selection)
    (hargs : argumentsOf field info = .ok args) (h : rootList s model field info = .ok p)
    (hc : count s model field info = .ok cp) :
    cp.filter = p.filter ∧ ∀ hops path, Asks s m args hops → path ≠ [] → path <+: hops →
      JoinedAlong p.includes path ∧ ∃ n, bareAt? path p.includes = some n ∧
        (n.filter.isSome = true ↔ ∃ n₀, bareAt? path (startNodes selection args) = some n₀ ∧
          n₀.filter.isSome = true) ∧
        (n.filter = none → ∀ q cq, p.select s = .ok q → cp.select s = .ok cq →
          ∃ j ∈ q.joins, ∃ j' ∈ cq.joins, j.name = joinName m.name path ∧ j.filter = none ∧
            j' = { j with required := j'.required }) := by
  obtain ⟨a, ha, hfin⟩ := exists_assembled hm hsel hargs h
  obtain ⟨a', ha', hfin'⟩ := exists_assembled_count hm hargs hc
  refine ⟨?_, fun hops path hasks hne hpath => ?_⟩
  · obtain ⟨lowered, hlowered, hfilter⟩ := hfin.filter
    obtain ⟨lowered', hlowered', hfilter'⟩ := hfin'.filter
    rw [filter_count ha.eq ha'.eq] at hlowered'
    cases hlowered'.symm.trans hlowered
    rw [hfilter, hfilter']
  · obtain ⟨hjoined, n, hn, hiff⟩ := filter_of_asked ha hfin hasks hne hpath
    refine ⟨hjoined, n, hn, hiff, fun hnone q cq hq hcq => ?_⟩
    have hQ := Include.filterClosed_true s
    obtain ⟨hjoined', n', hn', hiff'⟩ := filter_of_asked ha' hfin' hasks hne hpath
    have hnone' : n'.filter = none := by
      have hstart : startNodes { model := m.name } (countArguments args) = [] := rfl
      rw [hstart, Include.bareAt?_nil] at hiff'
      simpa using hiff'
    obtain ⟨above, hop, parent, assoc, t, rfl, hmodel, hfollow, hj⟩ :=
      join_of_asked (regular_rootList hQ hm h) hq hjoined hne hn hnone
    obtain ⟨above', hop', parent', assoc', t', heq, hmodel', hfollow', hj'⟩ :=
      join_of_asked (regular_count hQ hm hc) hcq hjoined' hne hn' hnone'
    obtain ⟨rfl, ⟨⟩⟩ := List.append_inj' heq rfl
    cases hmodel.symm.trans hmodel'
    cases hfollow.symm.trans hfollow'
    refine ⟨_, hj, _, hj', ?_, ?_, ?_⟩
    · rw [Include.name_joinOf, Schema.name_of_follow hfollow, Include.joinName_append]
    · exact Join.filter_joinOf
    · exact Include.joinOf_required

/-! ### People without children -/

def withoutChildren : String × Argument := ("without", .list [.scalar (.str "children")])

def orphans : String × Argument := ("where", .object [("parent", .scalar .null)])

def parentIsNull : Filter :=
  .comparison ⟨⟨[], "parent", []⟩, .is, .plain .null, some .integer, false⟩

theorem compile_orphans :
    Filter.compile familySchema "Person" (.obj [("parent", .null)]) = .ok parentIsNull := by
  simp only [Filter.compile, Filter.compileValue, Filter.compileFields]
  rfl

def childless (arguments : List (String × Argument)) : Field :=
  people [withoutChildren] [childrenOf arguments [.field "id" none [] []]]

/-- The selection of a field that leads to many rows of one other model. -/
theorem plan_of_manyField {selections : List Selection} {assoc : Association} {n : Include}
    {d : Nat} (hm : s.model model = .ok m) (hfields : info.expand selections = .ok [field])
    (hd : info.depthBound selections = d + 1) (hattr : m.attribute? field.name = none)
    (hassoc : m.associationForField? field.name = some assoc)
    (hjoin : field.isOptimized info = true) (hmany : assoc.kind.isMany = true)
    (hmax : 0 < s.options.maxMany)
    (hn : Include.ofField s info (Include.planLevel s info d) assoc field = .ok n) :
    Include.plan s info model selections none [] =
      .ok { model := m.name, attributes := [assoc.parentKey m], includes := [n] } := by
  simp [Include.plan, hm, hfields, hd, Include.planLevel, Include.Level.addField, hattr, hassoc,
    Include.Level.addAssociation, hjoin, hmany, hn, Include.insert, Include.mergeAll,
    Include.upsert, addName, Nat.pos_iff_ne_zero.mp hmax]

theorem plan_childless : Include.plan familySchema {} "Person"
    (childless [orphans]).selections none [] =
      .ok (peopleSelection { childrenNode [] with filter := some parentIsNull }) := by
  have hassoc : person.associationForField? "children" =
      some ⟨"children", .hasMany, "Person", "Person", "parent", none, none⟩ := rfl
  have hfields : ExecutionInfo.expand {} (childless [orphans]).selections =
      .ok [⟨"children", none, [("query", .object [orphans])], [.field "id" none [] []]⟩] := rfl
  refine plan_of_manyField (m := person) (d := 2) rfl hfields rfl rfl hassoc rfl rfl (by decide) ?_
  change Include.applyArguments familySchema person (childrenNode [])
    { filter := some (.obj [("parent", .null)]) } = _
  have hname : person.name = "Person" := rfl
  simp only [Include.applyArguments, hname, compile_orphans, ok_bind]
  rfl

def hasNoChild : Filter :=
  .comparison ⟨⟨["children"], "id", []⟩, .is, .plain .null, some .integer, false⟩

def childlessPlan (f : Option Filter) : Plan :=
  { peoplePlan { childrenNode [] with filter := f } with filter := some hasNoChild }

def childlessCount : Plan where
  model := "Person"
  attributes := [.count]
  includes := [{ target := "Person", name := "children", kind := .hasMany }]
  filter := some hasNoChild

theorem count_childless {arguments : List (String × Argument)} :
    count familySchema "Person" (childless arguments) {} = .ok childlessCount := by
  rfl

/-- Without a filter of its own the join is that of the count. -/
theorem childless_joins :
    childlessCount.filter = (childlessPlan none).filter ∧ ∀ hops path,
      Asks familySchema person { without := ["children"] } hops → path ≠ [] → path <+: hops →
        JoinedAlong (childlessPlan none).includes path ∧
        ∃ n, bareAt? path (childlessPlan none).includes = some n ∧
          (n.filter.isSome = true ↔ ∃ n₀, bareAt? path
            (startNodes (peopleSelection (childrenNode [])) { without := ["children"] }) =
              some n₀ ∧ n₀.filter.isSome = true) ∧
          (n.filter = none → ∀ q cq, (childlessPlan none).select familySchema = .ok q →
            childlessCount.select familySchema = .ok cq →
            ∃ j ∈ q.joins, ∃ j' ∈ cq.joins, j.name = joinName person.name path ∧
              j.filter = none ∧ j' = { j with required := j'.required }) := by
  have hargs : argumentsOf (childless []) {} = .ok { without := ["children"] } := rfl
  have hlist : rootList familySchema "Person" (childless []) {} = .ok (childlessPlan none) := rfl
  exact joins_of_asked rfl rfl hargs hlist count_childless

/-- People whose children all have a parent are listed as people without children. -/
theorem childless_filtered : Schema.build family = .ok familySchema ∧
    rootList familySchema "Person" (childless [orphans]) {} =
      .ok (childlessPlan (some parentIsNull)) ∧
    count familySchema "Person" (childless [orphans]) {} = .ok childlessCount ∧
    Asks familySchema person { without := ["children"] } ["children"] ∧
    bareAt? ["children"] (childlessPlan (some parentIsNull)).includes =
      some { childrenNode [] with filter := some parentIsNull } ∧
    (bareAt? ["children"] childlessCount.includes).map (·.filter) = some none := by
  refine ⟨build_family, ?_, count_childless, ?_, rfl, rfl⟩
  · unfold rootList
    rw [plan_childless]
    rfl
  · exact .inr ⟨"children", List.mem_singleton_self _, _, rfl, rfl⟩

end Query

end RelQuery

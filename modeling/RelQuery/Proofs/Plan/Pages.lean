import RelQuery.Proofs.Plan.Assembly

/-!
# What a page joins

A page counts rows, and the rows of a joined to-many association multiply them. The main statement
joins such an association only if its filters or its order go through it. A separate association
with a page of its own joins every to-many association that is selected below it. And a page makes
to-many associations separate even if the rows must have them.
-/

namespace RelQuery

open RelQuery.Filter (GoesAlong)

namespace Include

/-- A to-many association is joined at a path. -/
def JoinsMany (ns : List Include) (path : List String) : Prop :=
  JoinedAlong ns path ∧ ∃ n, bareAt? path ns = some n ∧ n.kind.isMany = true

/-- An association is joined at a path, and rows without it are dropped. -/
def JoinsInner (ns : List Include) (path : List String) : Prop :=
  JoinedAlong ns path ∧ ∃ n, bareAt? path ns = some n ∧ n.required = true

variable {pinned : List (List String)} {path : List String} {n : Include}

theorem not_cut_iff : ¬Cut pinned path n ↔
    (n.kind.isMany = true → n.attributes ≠ [] → ∃ hops ∈ pinned, path <+: hops) := by
  constructor
  · intro h hmany hattributes
    by_contra hfree
    exact h ⟨hmany, hattributes, fun hops hhops hpath => hfree ⟨hops, hhops, hpath⟩⟩
  · rintro h ⟨hmany, hattributes, hfree⟩
    obtain ⟨hops, hhops, hpath⟩ := h hmany hattributes
    exact hfree hops hhops hpath

end Include

namespace Query

open Include (JoinsMany JoinsInner JoinedAlong FilterThrough Accounted bareAt? nodeAt?)
open Plan (OrdersAlong startNodes orderOf)

variable {s : Schema} {m : Model} {p p' : Plan} {selection : PartialPlan} {args : Arguments}
  {a : Assembly} {model : String} {field field' : Field} {info : ExecutionInfo}
  {path base hops : List String}

namespace Assembled

variable (ha : Assembled s m selection args a)
include ha

/-- A to-many node that selects nothing is on a path of filter or order, or has a filter of the
selection through it. -/
theorem through_of_many {n : Include} (hn : bareAt? path a.nodes = some n)
    (hmany : n.kind.isMany = true) (hempty : n.attributes = []) :
    Leads s m args a.order path ∨ FilterThrough (startNodes selection args) path := by
  rcases ha.extends_nodes.exists_node hn with ⟨c, inner, hc, rfl⟩ | ⟨-, -, hhops⟩
  · exact .inr (ha.start.many path c hc hmany hempty)
  · exact .inl hhops

/-- A node with a page of its own is one of the selection, and separate. -/
theorem exists_start {n : Include} (hn : bareAt? base a.nodes = some n)
    (hpage : n.limit.isSome ∨ n.offset.isSome) :
    n.separate = true ∧ ∃ n₀, bareAt? base (startNodes selection args) = some n₀ := by
  rcases ha.extends_nodes.exists_node hn with ⟨c, inner, hc, rfl⟩ | ⟨-, hhop, -⟩
  · exact ⟨ha.start.page base c hc hpage, c, hc⟩
  · obtain ⟨-, hlimit, hoffset⟩ := hhop.plain
    simp [hlimit, hoffset] at hpage

/-- What a list joins through a to-many node that was not cut off. -/
theorem through_of_not_cut {n : Include} (hn : bareAt? path a.nodes = some n)
    (hmany : n.kind.isMany = true)
    (hcut : ¬Include.Cut (Plan.pinnedPaths a.filter a.order) path n) :
    Leads s m args a.order path ∨ FilterThrough (startNodes selection args) path := by
  by_cases hempty : n.attributes = []
  · exact ha.through_of_many hn hmany hempty
  · exact .inl ((Assembly.pinned_iff ha.eq).mp (Include.not_cut_iff.mp hcut hmany hempty))

/-- A grouped query joins only what filter and order lead through. -/
theorem leads_of_grouped {n : Include} (hn : bareAt? path a.nodes = some n)
    (hgroup : args.group ≠ []) : Leads s m args a.order path := by
  have hstart : startNodes selection args = [] := by simp [startNodes, hgroup]
  rcases ha.extends_nodes.exists_node hn with ⟨c, inner, hc, -⟩ | ⟨-, -, hhops⟩
  · rw [hstart, Include.bareAt?_nil] at hc
    cases hc
  · exact hhops

end Assembled

/-! ## The main statement -/

/-- On a page a list joins a to-many association only if its filter, its order or the filter of an
association above leads through it. -/
theorem through_of_joinsMany (hm : s.model model = .ok m)
    (hsel : Include.plan s info model field.selections none [] = .ok selection)
    (hargs : argumentsOf field info = .ok args) (h : rootList s model field info = .ok p)
    (hpage : p.limit.isSome ∨ p.offset.isSome) (hjoin : JoinsMany p.includes path) :
    Leads s m args p.order path ∨ FilterThrough (startNodes selection args) path := by
  obtain ⟨a, ha, hfin⟩ := exists_assembled hm hsel hargs h
  obtain ⟨hjoined, n', hn', hmany⟩ := hjoin
  obtain ⟨-, hcut⟩ := (hfin.joined path).mp hjoined
  obtain ⟨n, hn, filter, separate, rfl, -, -⟩ := hfin.exists_node hn'
  rw [hfin.order, leads_orderOf (Include.ne_nil_of_bareAt? hn)]
  by_cases hgroup : args.group = []
  · have hon : OnPage args := ⟨hgroup, by rwa [← hfin.limit, ← hfin.offset]⟩
    exact ha.through_of_not_cut hn hmany (hcut hon path (List.prefix_refl path) n hn)
  · exact .inl (ha.leads_of_grouped hn hgroup)

/-! ## Separate statements -/

theorem startNodes_of_bareAt? {n : Include}
    (h : bareAt? path (startNodes selection args) = some n) :
    startNodes selection args = selection.includes := by
  unfold startNodes at h ⊢
  split
  · rename_i hgroup
    rw [if_pos hgroup, Include.bareAt?_nil] at h
    cases h
  · rfl

/-- An association with a page of its own is separate, and every to-many association in its
statement selects something, or a filter of the statement leads through it. This is said of one that
no filter above leads through, as such a filter may need nodes below. -/
theorem leadsThrough_of_page {n : Include} (hm : s.model model = .ok m)
    (hsel : Include.plan s info model field.selections none [] = .ok selection)
    (hargs : argumentsOf field info = .ok args) (h : rootList s model field info = .ok p)
    (hn : nodeAt? base p.includes = some n) (hpage : n.limit.isSome ∨ n.offset.isSome)
    (hfree : ¬FilterThrough selection.includes base) :
    n.separate = true ∧ ∃ n₀, nodeAt? base selection.includes = some n₀ ∧
      ∀ path c, bareAt? path n.includes = some c → c.kind.isMany = true →
        c.attributes ≠ [] ∨ n₀.LeadsThrough path := by
  obtain ⟨a, ha, hfin⟩ := exists_assembled hm hsel hargs h
  have hbare : bareAt? base p.includes = some n.bare := congrArg (Option.map Include.bare) hn
  obtain ⟨b, hb, filter, separate, heq, -, hseparate⟩ := hfin.exists_node hbare
  have hlimit : n.limit = b.limit := (congrArg Include.limit heq :)
  have hoffset : n.offset = b.offset := (congrArg Include.offset heq :)
  rw [hlimit, hoffset] at hpage
  obtain ⟨hbsep, b₀, hb₀⟩ := ha.exists_start hb hpage
  have hstart := startNodes_of_bareAt? hb₀
  rw [hstart] at hb₀
  obtain ⟨n₀, hn₀, -⟩ := Option.map_eq_some_iff.mp hb₀
  refine ⟨(congrArg Include.separate heq).trans (hseparate hbsep), n₀, hn₀, ?_⟩
  intro path c hc hmany
  refine or_iff_not_imp_left.mpr fun hempty => ?_
  have hbelow : bareAt? (base ++ path) p.includes = some c := by
    rw [Include.bareAt?_append hn (Include.ne_nil_of_bareAt? hc), hc]
  obtain ⟨d, hd, filter', separate', rfl, -, -⟩ := hfin.exists_node hbelow
  rcases ha.through_of_many hd hmany (not_not.mp hempty) with hleads | hthrough
  · -- Paths run through joined nodes only, so none leads through the association.
    obtain ⟨_, hb', hjoined⟩ := ha.joined_of_leads hleads base
      (Include.ne_nil_of_bareAt? hb) (List.prefix_append base path)
    cases hb'.symm.trans hb
    cases hjoined.symm.trans hbsep
  · rw [hstart] at hthrough
    exact (hthrough.append hn₀).resolve_left hfree

/-- What the statements of a page join. A to-many association in the main statement has the filter,
the order or the filter of an association above lead through it. An association with a page of its
own is separate, and a to-many association in its statement is selected there or has a filter of the
statement lead through it; of one that a filter above leads through, this is not said. -/
theorem through_of_page (hm : s.model model = .ok m)
    (hsel : Include.plan s info model field.selections none [] = .ok selection)
    (hargs : argumentsOf field info = .ok args) (h : rootList s model field info = .ok p) :
    ((p.limit.isSome ∨ p.offset.isSome) → ∀ path, JoinsMany p.includes path →
      Leads s m args p.order path ∨ FilterThrough (startNodes selection args) path) ∧
    ∀ base n, nodeAt? base p.includes = some n → (n.limit.isSome ∨ n.offset.isSome) →
      ¬FilterThrough selection.includes base →
      n.separate = true ∧ ∃ n₀, nodeAt? base selection.includes = some n₀ ∧
        ∀ path c, bareAt? path n.includes = some c → c.kind.isMany = true →
          c.attributes ≠ [] ∨ n₀.LeadsThrough path :=
  ⟨fun hpage _ hjoin => through_of_joinsMany hm hsel hargs h hpage hjoin,
    fun _ _ hn hpage hfree => leadsThrough_of_page hm hsel hargs h hn hpage hfree⟩

/-! ### Two people in the order of their children -/

def family : Config where
  models := [{
    name := "Person"
    table := some "people"
    attributes := [{ name := "id", type := "INTEGER", primaryKey := true },
      { name := "parent", type := "INTEGER" }]
    associations := [{
      kind := .hasMany
      target := "Person"
      declaredName := some "children"
      foreignKey := "parent" }] }]

def familySchema : Schema := ⟨family.models.map (·.resolve), family.options⟩

theorem build_family : Schema.build family = .ok familySchema := by decide

def person : Model :=
  ⟨"Person", "people", [⟨"id", "id", .integer, false, true, none⟩,
    ⟨"parent", "parent", .integer, true, false, none⟩],
    [⟨"children", .hasMany, "Person", "Person", "parent", none, none⟩]⟩

def two : String × Argument := ("limit", .scalar (.num (.int 2 (by decide) (by decide))))

def byChildren : String × Argument :=
  ("order", .list [.list [.scalar (.str "children__id"), .scalar (.str "ASC")]])

/-- The children of a person. -/
def childrenOf (arguments : List (String × Argument)) (below : List Selection) : Selection :=
  .field "children" none [("query", .object arguments)] below

def people (arguments : List (String × Argument)) (below : List Selection) : Field where
  name := "people"
  arguments := [("query", .object arguments)]
  selections := below

def childrenNode (below : List Include) : Include where
  target := "Person"
  name := "children"
  kind := .hasMany
  attributes := ["id"]
  includes := below

def peopleSelection (n : Include) : PartialPlan where
  model := "Person"
  attributes := ["id"]
  includes := [n]

def peoplePlan (n : Include) : Plan where
  model := "Person"
  attributes := [.column "id"]
  includes := [n]

/-- The first two people by their children, with the first two children of each child. -/
def firstTwoByChildren : Field :=
  people [two, byChildren] [childrenOf [] [childrenOf [two] [.field "id" none [] []]]]

def firstTwoArguments : Arguments where
  order := [("children__id", .asc)]
  limit := some 2

/-- Children, of whom the first two children are loaded. -/
def grandchildrenNode : Include :=
  childrenNode [{ childrenNode [] with limit := some 2, separate := true }]

def firstTwoPlan : Plan :=
  { peoplePlan grandchildrenNode with
    order := [⟨.column ["children"] "Person" "id", .asc⟩]
    limit := some 2 }

theorem plan_firstTwoByChildren : Include.plan familySchema {} "Person"
    firstTwoByChildren.selections none [] = .ok (peopleSelection grandchildrenNode) := by
  rfl

theorem rootList_firstTwoByChildren :
    rootList familySchema "Person" firstTwoByChildren {} = .ok firstTwoPlan := by
  rfl

/-- The order leads through the children, and the page of grandchildren joins nothing. -/
theorem firstTwoPlan_through :
    ((firstTwoPlan.limit.isSome ∨ firstTwoPlan.offset.isSome) → ∀ path,
      JoinsMany firstTwoPlan.includes path →
        Leads familySchema person firstTwoArguments firstTwoPlan.order path ∨
        FilterThrough (startNodes (peopleSelection grandchildrenNode) firstTwoArguments) path) ∧
    ∀ base n, nodeAt? base firstTwoPlan.includes = some n → (n.limit.isSome ∨ n.offset.isSome) →
      ¬FilterThrough (peopleSelection grandchildrenNode).includes base →
      n.separate = true ∧
        ∃ n₀, nodeAt? base (peopleSelection grandchildrenNode).includes = some n₀ ∧
          ∀ path c, bareAt? path n.includes = some c → c.kind.isMany = true →
            c.attributes ≠ [] ∨ n₀.LeadsThrough path :=
  through_of_page rfl plan_firstTwoByChildren rfl rootList_firstTwoByChildren

/-! ### The first two children of people, with their children -/

def childrenPage : Include :=
  { childrenNode [childrenNode []] with limit := some 2, separate := true }

/-- The page of children counts a row for each of their children. -/
theorem childrenPage_joinsMany : Schema.build family = .ok familySchema ∧
    rootList familySchema "Person"
      (people [] [childrenOf [two] [childrenOf [] [.field "id" none [] []]]]) {} =
        .ok (peoplePlan childrenPage) ∧
    nodeAt? ["children"] (peoplePlan childrenPage).includes = some childrenPage ∧
    childrenPage.separate = true ∧ childrenPage.limit = some 2 ∧
    JoinsMany childrenPage.includes ["children"] ∧ ¬childrenPage.LeadsThrough ["children"] := by
  refine ⟨build_family, rfl, rfl, rfl, rfl, ⟨?_, _, rfl, rfl⟩, ?_⟩
  · rw [Include.joinedAlong_cons]
    exact ⟨_, rfl, rfl, fun path hne hpath => (hne (List.prefix_nil.mp hpath)).elim⟩
  · rintro (⟨hops, hgoes, -⟩ | ⟨above, below, n, hops, -, -, hn, hgoes, -⟩)
    · exact Filter.not_goesAlong_none hgoes
    · obtain ⟨c, hc, rfl⟩ := Option.map_eq_some_iff.mp hn
      cases Include.eq_of_nodeAt?_singleton rfl hc
      exact Filter.not_goesAlong_none hgoes

/-! ## With and without a page -/

theorem assemble_unpaged :
    assemble s m selection { args with limit := none, offset := none } =
      assemble s m selection args := rfl

theorem Finishes.joinsInner_iff (hfin : Finishes s m args a p) :
    JoinsInner p.includes path ↔ JoinsInner a.nodes path ∧
    (OnPage args → ∀ above, above <+: path → ∀ n, bareAt? above a.nodes = some n →
      ¬Include.Cut (Plan.pinnedPaths a.filter a.order) above n) := by
  have hrequired : (∃ n, bareAt? path p.includes = some n ∧ n.required = true) ↔
      ∃ n, bareAt? path a.nodes = some n ∧ n.required = true := by
    constructor
    · rintro ⟨n', hn', hreq⟩
      obtain ⟨n, hn, filter, separate, rfl, -, -⟩ := hfin.exists_node hn'
      exact ⟨n, hn, hreq⟩
    · rintro ⟨n, hn, hreq⟩
      obtain ⟨n', hn', filter, separate, rfl, -, -⟩ := hfin.exists_finished hn
      exact ⟨_, hn', hreq⟩
  rw [JoinsInner, JoinsInner, hfin.joined, hrequired, and_right_comm]

/-- A page drops an inner join exactly if a to-many association that selects something stands on its
path, and neither filter nor order leads through that association. -/
theorem joinsInner_of_page (hm : s.model model = .ok m)
    (hsel : field'.selections = field.selections)
    (hargs : argumentsOf field info = .ok args)
    (hargs' : argumentsOf field' info = .ok { args with limit := none, offset := none })
    (h : rootList s model field info = .ok p) (h' : rootList s model field' info = .ok p') :
    JoinsInner p.includes path ↔ JoinsInner p'.includes path ∧
      (OnPage args → ∀ above, above <+: path → ∀ n, bareAt? above p'.includes = some n →
        n.kind.isMany = true → n.attributes ≠ [] → Leads s m args p'.order above) := by
  obtain ⟨selection, hplan, -⟩ := bind_eq_ok.mp h
  obtain ⟨a, ha, hfin⟩ := exists_assembled hm hplan hargs h
  obtain ⟨a', ha', hfin'⟩ := exists_assembled hm (hsel ▸ hplan) hargs' h'
  cases (ha'.eq.symm.trans assemble_unpaged).trans ha.eq
  have hunpaged : ¬OnPage { args with limit := none, offset := none } := by simp [OnPage]
  have hcut : ∀ above n n', bareAt? above a.nodes = some n → Finished n n' →
      (¬Include.Cut (Plan.pinnedPaths a.filter a.order) above n ↔
        (n'.kind.isMany = true → n'.attributes ≠ [] → Leads s m args p'.order above)) := by
    rintro above n n' hn ⟨filter, separate, rfl, -, -⟩
    rw [Include.not_cut_iff, Assembly.pinned_iff ha.eq, hfin'.order]
    exact forall₂_congr fun _ _ => (leads_orderOf (Include.ne_nil_of_bareAt? hn)).symm
  rw [hfin.joinsInner_iff, hfin'.joinsInner_iff, and_iff_left fun hpage => (hunpaged hpage).elim]
  refine and_congr_right fun _ => forall₃_congr fun _ above _ => ?_
  constructor
  · intro h n' hn'
    obtain ⟨n, hn, hfinished⟩ := hfin'.exists_node hn'
    exact (hcut above n n' hn hfinished).mp (h n hn)
  · intro h n hn
    obtain ⟨n', hn', hfinished⟩ := hfin'.exists_finished hn
    exact (hcut above n n' hn hfinished).mpr (h n' hn')

/-! ### People who have children -/

def mustHave : String × Argument := ("required", .scalar (.bool true))

def parents (arguments : List (String × Argument)) : Field :=
  people arguments [childrenOf [mustHave] [.field "id" none [] []]]

def requiredChildren : Include := { childrenNode [] with required := true }

def byChildrenId : OrderEntry := ⟨.column ["children"] "Person" "id", .asc⟩

/-- The order by children keeps them joined on a page. -/
theorem joinsInner_parents :
    JoinsInner { peoplePlan requiredChildren with
        order := [byChildrenId], limit := some 2 }.includes ["children"] ↔
      JoinsInner { peoplePlan requiredChildren with order := [byChildrenId] }.includes
        ["children"] ∧
      (OnPage firstTwoArguments → ∀ above, above <+: ["children"] → ∀ n,
        bareAt? above { peoplePlan requiredChildren with order := [byChildrenId] }.includes =
          some n →
        n.kind.isMany = true → n.attributes ≠ [] →
          Leads familySchema person firstTwoArguments [byChildrenId] above) := by
  have hsel : (parents [byChildren]).selections = (parents [two, byChildren]).selections := rfl
  have hargs : argumentsOf (parents [two, byChildren]) {} = .ok firstTwoArguments := rfl
  have hargs' : argumentsOf (parents [byChildren]) {} =
      .ok { firstTwoArguments with limit := none, offset := none } := rfl
  have hperson : familySchema.model "Person" = .ok person := rfl
  exact joinsInner_of_page hperson hsel hargs hargs' rfl rfl

/-- The first two people are taken of all, not of those who have children. -/
theorem parents_not_joinsInner : Schema.build family = .ok familySchema ∧
    rootList familySchema "Person" (parents []) {} = .ok (peoplePlan requiredChildren) ∧
    rootList familySchema "Person" (parents [two]) {} =
      .ok { peoplePlan { requiredChildren with separate := true } with limit := some 2 } ∧
    JoinsInner (peoplePlan requiredChildren).includes ["children"] ∧
    ¬JoinsInner { peoplePlan { requiredChildren with separate := true } with
      limit := some 2 }.includes ["children"] := by
  refine ⟨build_family, rfl, rfl, ⟨?_, _, rfl, rfl⟩, fun h => ?_⟩
  · rw [Include.joinedAlong_cons]
    exact ⟨_, rfl, rfl, fun path hne hpath => (hne (List.prefix_nil.mp hpath)).elim⟩
  · obtain ⟨n, hn, hs, -⟩ := Include.joinedAlong_cons.mp h.1
    cases hn
    cases hs

end Query

end RelQuery

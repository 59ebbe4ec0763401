import RelQuery.Proofs.Include.Added
import RelQuery.Proofs.Plan.Asked
import RelQuery.Proofs.Plan.Conforming

/-!
# Lists and their counts

A list that can be planned can be counted, and by the same filter. The count joins only what the
filter and the excluded associations go through, selects nothing there, and each of its joins is one
of the list.
-/

namespace RelQuery.Query

open Include (Forest AllJoined InnerAt Extends JoinedAlong bareAt? nodeAt?)
open Plan (startNodes)

variable {s : Schema} {Q : Model → Filter → Prop} {m : Model} {p : Plan} {selection : PartialPlan}
  {args : Arguments} {a : Assembly} {ns ns' ns₁ : List Include} {fields hops path : List String}
  {model : String} {field : Field} {info : ExecutionInfo} {fs : List Filter}

/-! ## Excluded associations -/

/-- What can be excluded with some nodes can be excluded with any that are joined. -/
theorem exists_exclude (h : exclude s m fields ns = .ok (fs, ns₁)) (hns : Forest s Q m ns')
    (hj : AllJoined ns') : ∃ fs' ns₁', exclude s m fields ns' = .ok (fs', ns₁') ∧
      AllJoined ns₁' := by
  induction fields generalizing ns ns' fs with
  | nil => exact ⟨[], ns', rfl, hj⟩
  | cons field fields ih =>
    obtain ⟨assoc, target, ns₂, fs₂, hassoc, ht, -, h₂, -⟩ := exclude_cons_eq_ok h
    obtain ⟨ns₂', h₂'⟩ := Include.exists_ensurePath false hns hj
      (Schema.modelAt_singleton (Schema.follow_of_field hassoc ht))
    have hj₂ : AllJoined ns₂' := hj.extends (Include.extends_ensurePath hns h₂')
    obtain ⟨fs', ns₁', h', hj'⟩ := ih h₂ (hns.ensurePath h₂') hj₂
    exact ⟨lacks assoc target :: fs', ns₁',
      by simp [exclude, requireField, hassoc, ht, h₂', h'], hj'⟩

theorem innerAt_exclude (hns : Forest s Q m ns) (h : exclude s m fields ns = .ok (fs, ns')) :
    InnerAt ns' path ↔ InnerAt ns path := by
  induction fields generalizing ns fs with
  | nil =>
    cases h
    rfl
  | cons field fields ih =>
    obtain ⟨assoc, target, ns₁, fs₁, -, -, h₁, h₂, -⟩ := exclude_cons_eq_ok h
    rw [ih (hns.ensurePath h₁) h₂, Include.innerAt_ensurePath hns h₁]
    simp

/-! ## The nodes of a count -/

theorem innerAt_attach {filter : Option Filter} (hns : Forest s Q m ns)
    (h : attach s m filter ns = .ok ns') : InnerAt ns' path ↔ InnerAt ns path ∨
      path ≠ [] ∧ ∃ negated, Filter.OptionReaches filter (negated, true) ∧
        path <+: negated.hops := by
  unfold attach at h
  split at h
  · rw [Include.innerAt_attachFilter hns h]
    simp [Filter.OptionReaches]
  · cases h
    simp [Filter.OptionReaches]

/-- A negated comparison of the filter of a query runs through the end of a path. -/
def Negates (s : Schema) (m : Model) (args : Arguments) (path : List String) : Prop :=
  ∃ value f negated, args.filter = some value ∧ Filter.compile s m.name value = .ok f ∧
    f.Reaches (negated, true) ∧ path <+: negated.hops

/-- The filter inherits a property from what the query asks for, unless the conditions of excluded
associations have it. -/
theorem exists_filter_iff {P : Filter → Prop} (hP : Filter.Inherited P)
    (h : assemble s m selection args = .ok a) (hlacks : ∀ assoc target, ¬P (lacks assoc target)) :
    (∃ f, a.filter = some f ∧ P f) ↔
      ∃ value f, args.filter = some value ∧ Filter.compile s m.name value = .ok f ∧ P f := by
  obtain ⟨filters, conditions, includes, nodes, hfilters, hex, hfilter, -, -⟩ := assemble_eq_ok h
  have hall : (∃ f, a.filter = some f ∧ P f) ↔ P (Filter.all (filters ++ conditions)) := by
    rw [hfilter]
    constructor
    · rintro ⟨f, hf, h⟩
      exact Filter.proper?_eq_some hf ▸ h
    · intro h
      rcases Filter.proper?_eq (Filter.all (filters ++ conditions)) with heq | ⟨-, heq⟩
      · exact ⟨_, heq, h⟩
      · rw [heq] at h
        obtain ⟨f, hf, -⟩ := hP.logical.mp h
        cases hf
  have hconditions : ∀ f ∈ conditions, ¬P f := by
    intro f hf
    obtain ⟨assoc, target, -, rfl⟩ := lacks_of_exclude hex f hf
    exact hlacks assoc target
  have hfilters_iff : P (Filter.all (filters ++ conditions)) ↔ ∃ f ∈ filters, P f := by
    rw [Filter.all, hP.combine]
    constructor
    · rintro ⟨f, hf, h⟩
      exact ⟨f, (List.mem_append.mp hf).resolve_right fun hf => hconditions f hf h, h⟩
    · rintro ⟨f, hf, h⟩
      exact ⟨f, List.mem_append_left _ hf, h⟩
  rw [hall, hfilters_iff]
  unfold asked at hfilters
  split at hfilters
  · rename_i value hvalue
    obtain ⟨f, hf, rfl⟩ := map_eq_ok.mp hfilters
    simp [hvalue, hf]
  · rename_i hnone
    cases hfilters
    simp [hnone]

/-- No condition of an excluded association is negated. -/
theorem not_reaches_negated_lacks {assoc : Association} {target : Model}
    {negated : AttributePath} : ¬(lacks assoc target).Reaches (negated, true) := by
  rintro ⟨l, hl, hr⟩
  cases List.mem_singleton.mp hl
  cases hr

theorem reaches_negated (h : assemble s m selection args = .ok a) :
    (∃ negated, Filter.OptionReaches a.filter (negated, true) ∧ path <+: negated.hops) ↔
      Negates s m args path := by
  have hreaches : ∀ negated, Filter.OptionReaches a.filter (negated, true) ↔
      ∃ value f, args.filter = some value ∧ Filter.compile s m.name value = .ok f ∧
        f.Reaches (negated, true) :=
    fun negated => exists_filter_iff (Filter.inherited_reaches _) h
      fun _ _ => not_reaches_negated_lacks
  unfold Negates
  simp only [hreaches]
  constructor
  · rintro ⟨negated, ⟨value, f, hvalue, hf, hr⟩, hpath⟩
    exact ⟨value, f, negated, hvalue, hf, hr, hpath⟩
  · rintro ⟨value, f, negated, hvalue, hf, hr, hpath⟩
    exact ⟨negated, ⟨value, f, hvalue, hf, hr⟩, hpath⟩

/-- What is counted: the filter of the list, with the nodes that lead along what it asks for. -/
structure Counted (s : Schema) (m : Model) (args : Arguments) (a : Assembly) : Prop where
  forest : Forest s (fun _ _ => False) m a.nodes
  extends_nil : Extends (Asks s m args) [] a.nodes
  inner : ∀ path, InnerAt a.nodes path ↔ path ≠ [] ∧ Negates s m args path

theorem counted (h : assemble s m { model := m.name } (countArguments args) = .ok a) :
    Counted s m args a := by
  have hasks : ∀ hops, Asks s m (countArguments args) hops ↔ Asks s m args hops :=
    fun hops => Iff.rfl
  have horder : a.order = [] := by
    obtain ⟨filters, conditions, includes, nodes, -, -, -, -, horder⟩ := assemble_eq_ok h
    exact (congrArg Prod.fst (Except.ok.inj horder)).symm
  obtain ⟨hforest, hext⟩ := Assembly.extends_nodes (Q := fun _ _ => False) h .nil
  refine ⟨hforest, hext.mono fun hops hhops => ?_, fun path => ?_⟩
  · refine hhops.resolve_right ?_
    rw [horder]
    rintro ⟨e, he, -⟩
    cases he
  · obtain ⟨filters, conditions, includes, nodes, hfilters, hex, hfilter, hnodes, horder⟩ :=
      assemble_eq_ok h
    have hnil : ¬InnerAt includes path := by
      rw [innerAt_exclude (Q := fun _ _ => False) .nil hex]
      rintro ⟨n, hn, -⟩
      rw [Include.bareAt?_nil] at hn
      cases hn
    have hincludes : Forest s (fun _ _ => False) m includes := forest_exclude hex .nil
    have hsame : nodes = a.nodes := congrArg Prod.snd (Except.ok.inj horder)
    have hnegates : Negates s m (countArguments args) path ↔ Negates s m args path := Iff.rfl
    rw [← hnegates, ← reaches_negated h, ← hsame]
    exact (innerAt_attach hincludes hnodes).trans (or_iff_right hnil)

/-- What a list has been assembled from can be assembled for its count. -/
theorem Assembled.exists_count (ha : Assembled s m selection args a) :
    ∃ a', assemble s m { model := m.name } (countArguments args) = .ok a' := by
  obtain ⟨filters, conditions, includes, nodes, hfilters, hex, hfilter, -, -⟩ :=
    assemble_eq_ok ha.eq
  obtain ⟨conditions', includes', hex', hj⟩ :=
    exists_exclude (Q := fun _ _ => False) hex .nil Include.allJoined_nil
  cases conditions_of_exclude hex' hex
  have hmodel : ∀ hops, Filter.GoesAlong a.filter hops → ∃ t, s.modelAt m hops = .ok t :=
    fun hops hgoes => ((Include.joined_iff ha.forest).mp
      (Assembly.joined ha.eq (.inl ((Assembly.goesAlong_filter ha.eq).mp hgoes)))).1
  have hincludes : Forest s (fun _ _ => False) m includes' := forest_exclude hex' .nil
  obtain ⟨nodes', hnodes⟩ : ∃ nodes', attach s m a.filter includes' = .ok nodes' := by
    unfold attach
    split
    · rename_i f hf
      exact Include.exists_attachFilter hincludes hj (hf ▸ hmodel)
    · exact ⟨_, rfl⟩
  refine ⟨⟨a.filter, [], nodes'⟩, ?_⟩
  have hfilters' : asked s m (countArguments args) = .ok filters := hfilters
  have hex' : exclude s m (countArguments args).without [] = .ok (conditions, includes') := hex'
  rw [assemble, hfilters', ok_bind, hex', ok_bind]
  dsimp only
  rw [← hfilter]
  have hnodes : attach s m a.filter
      (startNodes { model := m.name, includes := includes' } (countArguments args)) =
        .ok nodes' := hnodes
  rw [hnodes]
  rfl

/-- Without groups and a page, a composition only lowers what it attached. -/
theorem compose_eq_ok {filter lowered : Option Filter} {order : List OrderEntry}
    (hm : s.model selection.model = .ok m) (hgroup : args.group = []) (hpage : ¬OnPage args)
    (hnodes : attach s m filter selection.includes = .ok ns)
    (horder : Plan.attachOrders s m args.order ns = .ok (order, ns₁))
    (hlowered : lowerFilter s m filter = .ok lowered)
    (hlower : Include.lowerAll s m m.name ns₁ = .ok ns') :
    Plan.compose s selection filter args = .ok {
      model := m.name
      attributes := Plan.plainItems m selection.attributes
      includes := ns'
      filter := lowered.bind (·.proper?)
      order
      limit := args.limit
      offset := args.offset } := by
  have hstart : startNodes selection args = selection.includes := by simp [startNodes, hgroup]
  have horderOf : Plan.orderOf m args order = order := by simp [Plan.orderOf, hgroup]
  rw [← hstart] at hnodes
  rw [Plan.compose_eq, hm, ok_bind]
  unfold attach at hnodes
  unfold lowerFilter at hlowered
  cases filter <;> simp_all [pageNodes_of_not_onPage hpage]

/-- The count is what was assembled for it. -/
theorem count_of_assembly {lowered : Option Filter} (hm : s.model model = .ok m)
    (hargs : argumentsOf field info = .ok args)
    (h : assemble s m { model := m.name } (countArguments args) = .ok a)
    (hlowered : lowerFilter s m a.filter = .ok lowered) : count s model field info = .ok {
      model := m.name
      attributes := [.count]
      includes := a.nodes
      filter := lowered.bind (·.proper?) } := by
  have hlower : Include.lowerAll s m m.name a.nodes = .ok a.nodes :=
    Include.lowerAll_of_plain (counted h).forest
  obtain ⟨filters, conditions, includes, nodes, hfilters, hex, hfilter, hnodes, horder⟩ :=
    assemble_eq_ok h
  have hempty : a.order = [] := (congrArg Prod.fst (Except.ok.inj horder)).symm
  have hmodel : s.model { model := m.name, includes : PartialPlan }.model = .ok m :=
    Schema.model_name hm
  have hpage : ¬OnPage (countArguments args) := by simp [OnPage, countArguments]
  have hcompose := compose_eq_ok hmodel rfl hpage hnodes horder hlowered hlower
  rw [hfilter] at hcompose
  rw [count, hm, ok_bind, hargs, ok_bind]
  change (applyArguments s { model := m.name } (countArguments args) >>= _) = _
  rw [applyArguments_eq, Schema.model_name hm, ok_bind, hfilters, ok_bind, hex, ok_bind]
  dsimp only
  rw [hcompose, ok_bind, hempty]
  rfl

/-! ## Lists -/

/-- The nodes at a path of two trees of a model join one association. -/
theorem one_association {Q Q' : Model → Filter → Prop} {ns bs : List Include} {b : Include}
    {path : List String} (hns : Forest s Q m ns) (hbs : Forest s Q' m bs)
    (hn : nodeAt? path ns = some n) (hb : nodeAt? path bs = some b) :
    b.target = n.target ∧ b.name = n.name ∧ b.kind = n.kind := by
  obtain ⟨above, hroot, hroot', hname⟩ := Include.rooted_of_nodeAt? hns hbs hn hb
  obtain ⟨assoc, t, hf⟩ := hroot.exists_follow
  have hf' := hname ▸ hf
  exact ⟨(hroot'.target hf').trans (hroot.target hf).symm, hname.symm,
    (hroot'.kind hf').trans (hroot.kind hf).symm⟩

/-- A list that can be planned can be counted, by the same filter. What the count joins is on the
way of a filter or to an excluded association, selects nothing and has no condition. It is an inner
join exactly if a negated comparison runs through it, and the list joins it, too. -/
theorem count_of_rootList (h : rootList s model field info = .ok p) :
    ∃ m args cp, s.model model = .ok m ∧ argumentsOf field info = .ok args ∧
      count s model field info = .ok cp ∧ cp.filter = p.filter ∧
      ∀ parent n, Include.Below s m cp.includes parent n →
        ∃ path, nodeAt? path cp.includes = some n ∧
          (∃ hops, Asks s m args hops ∧ path <+: hops) ∧ n.attributes = [] ∧ n.filter = none ∧
          (n.required = true ↔ Negates s m args path) ∧ JoinedAlong p.includes path ∧
          ∃ n', nodeAt? path p.includes = some n' ∧ n'.target = n.target ∧ n'.name = n.name ∧
            n'.kind = n.kind := by
  obtain ⟨selection, hsel, hrest⟩ := bind_eq_ok.mp h
  obtain ⟨m, hm, -⟩ := bind_eq_ok.mp hsel
  obtain ⟨args, hargs, -⟩ := bind_eq_ok.mp hrest
  obtain ⟨a, ha, hfin⟩ := exists_assembled hm hsel hargs h
  obtain ⟨lowered, hlowered, hfilter⟩ := hfin.filter
  obtain ⟨a', ha'⟩ := ha.exists_count
  rw [← filter_count ha.eq ha'] at hlowered
  refine ⟨m, args, _, hm, hargs, count_of_assembly hm hargs ha' hlowered, hfilter.symm, ?_⟩
  intro parent n hn
  obtain ⟨hforest, hext, hinner⟩ := counted ha'
  obtain ⟨path, hpath⟩ := hn.exists_nodeAt? hforest
  have hbare : bareAt? path a'.nodes = some n.bare := congrArg (Option.map Include.bare) hpath
  have hne := Include.ne_nil_of_bareAt? hbare
  obtain ⟨c, inner, hc, -⟩ | ⟨-, ⟨assoc, t, inner, heq⟩, hops, hasks, hprefix⟩ :=
    hext.exists_node hbare
  · rw [Include.bareAt?_nil] at hc
    cases hc
  obtain ⟨hjoined, n', hn', -⟩ := filter_of_asked ha hfin hasks hne hprefix
  obtain ⟨n', hat, -⟩ := Option.map_eq_some_iff.mp hn'
  have hregular : p.Regular s (fun _ _ => True) m :=
    regular_rootList (Include.filterClosed_true s) hm h
  have hrequired : InnerAt a'.nodes path ↔ n.required = true := by
    simp [InnerAt, hbare, Include.bare]
  refine ⟨path, hpath, ⟨hops, hasks, hprefix⟩, congrArg Include.attributes heq,
    congrArg Include.filter heq, ?_, hjoined, n', hat,
    one_association hforest hregular.includes hpath hat⟩
  rw [← hrequired, hinner]
  exact and_iff_right hne

/-! ### Two people without a fourth child -/

def fourth : Document := .num (.int 4 (by decide) (by decide))

/-- No child has this key. -/
def noFourthChild : String × Argument := ("where", .object [("children!!id", .scalar fourth)])

def withoutFourthChild : Filter :=
  .comparison ⟨⟨["children"], "id", []⟩, .eq, .plain fourth, some .integer, true⟩

theorem compile_noFourthChild :
    Filter.compile familySchema "Person" (.obj [("children!!id", fourth)]) =
      .ok withoutFourthChild := by
  simp only [Filter.compile, Filter.compileValue, Filter.compileFields]
  rfl

def noFourthChildArguments : Arguments where
  filter := some (.obj [("children!!id", fourth)])
  limit := some 2

def noFourthChildField : Field :=
  people [noFourthChild, two] [childrenOf [] [.field "id" none [] []]]

/-- Children are joined by an inner join, as the negated comparison goes through them. -/
def noFourthChildPlan : Plan :=
  { peoplePlan { childrenNode [] with required := true } with
    filter := some withoutFourthChild
    limit := some 2 }

theorem rootList_noFourthChild :
    rootList familySchema "Person" noFourthChildField {} = .ok noFourthChildPlan := by
  have hname : person.name = "Person" := rfl
  have hselection : Include.plan familySchema {} "Person" noFourthChildField.selections none [] =
      .ok (peopleSelection (childrenNode [])) := rfl
  have hargs : argumentsOf noFourthChildField {} = .ok noFourthChildArguments := rfl
  have hasked : asked familySchema person noFourthChildArguments = .ok [withoutFourthChild] := by
    simp only [asked, noFourthChildArguments, hname, compile_noFourthChild]
    rfl
  have hmodel : familySchema.model (peopleSelection (childrenNode [])).model = .ok person := rfl
  rw [rootList, hselection, ok_bind, hargs, ok_bind, applyArguments_eq, hmodel, ok_bind, hasked]
  rfl

theorem noFourthChildPlan_counted : ∃ m args cp, familySchema.model "Person" = .ok m ∧
    argumentsOf noFourthChildField {} = .ok args ∧
    count familySchema "Person" noFourthChildField {} = .ok cp ∧
    cp.filter = noFourthChildPlan.filter ∧
    ∀ parent n, Include.Below familySchema m cp.includes parent n →
      ∃ path, nodeAt? path cp.includes = some n ∧
        (∃ hops, Asks familySchema m args hops ∧ path <+: hops) ∧ n.attributes = [] ∧
        n.filter = none ∧ (n.required = true ↔ Negates familySchema m args path) ∧
        JoinedAlong noFourthChildPlan.includes path ∧
        ∃ n', nodeAt? path noFourthChildPlan.includes = some n' ∧ n'.target = n.target ∧
          n'.name = n.name ∧ n'.kind = n.kind :=
  count_of_rootList rootList_noFourthChild

end RelQuery.Query

import RelQuery.Proofs.Include.Through

/-!
# Selection sets at a level

An association that is asked for under several response keys has one node, so one level of the
planned tree may come from several selection sets. Each of them joins the to-many associations that
it has room for. A node that loads something is there because a field of one of these sets asks for
it, and the keys of all associations that they ask for are selected.
-/

namespace RelQuery

/-! ## What a field asks for -/

/-- The association that a field asks for; a field with the name of an attribute asks for that. -/
def Field.association? (f : Field) (m : Model) : Option Association :=
  if (m.attribute? f.name).isSome then none else m.associationForField? f.name

/-- The column that a field asks for: its attribute, or the key of its association. -/
def Field.column? (f : Field) (m : Model) : Option String :=
  if (m.attribute? f.name).isSome then some f.name
  else (m.associationForField? f.name).map (·.parentKey m)

namespace Include

variable {s : Schema} {Q : Model → Filter → Prop} {info : ExecutionInfo} {m t parent : Model}
  {fields here : List Field} {f : Field} {assoc : Association} {many : List String}
  {n node : Include} {ns ns' ns₁ bs : List Include} {name : String} {hops path : List String}
  {level level' : Level} {planTarget : Model → List Field → Except PlanError Level}
  {T : List String → Prop}

theorem association?_of_asked (h : f.association? m = some assoc) :
    m.association? assoc.name = some assoc := by
  unfold Field.association? at h
  split at h
  · cases h
  · exact Model.association?_of_field h

/-- A selection set asks for a column. -/
def Asks (m : Model) (fields : List Field) (x : String) : Prop :=
  ∃ f ∈ fields, f.column? m = some x

theorem column?_of_asked (h : f.association? m = some assoc) :
    f.column? m = some (assoc.parentKey m) := by
  unfold Field.association? at h
  unfold Field.column?
  split at h
  · cases h
  · rename_i hattribute
    rw [if_neg hattribute, h, Option.map_some]

/-! ## Rooms for to-many associations -/

/-- The to-many associations that a selection set joins, with that of one more field if there is
room for it. -/
def enroll (s : Schema) (info : ExecutionInfo) (m : Model) (many : List String) (f : Field) :
    List String :=
  match f.association? m with
  | none => many
  | some assoc =>
    if f.isOptimized info && assoc.kind.isMany && decide (many.length < s.options.maxMany) then
      addName many assoc.name
    else many

/-- The to-many associations that a selection set joins. -/
def enrolled (s : Schema) (info : ExecutionInfo) (m : Model) (fields : List Field) : List String :=
  fields.foldl (enroll s info m) []

/-- A field asks for an association, and a selection set that joins these to-many ones joins it. -/
structure Joins (info : ExecutionInfo) (m : Model) (many : List String) (f : Field)
    (assoc : Association) : Prop where
  association : f.association? m = some assoc
  optimized : f.isOptimized info = true
  many : assoc.kind.isMany = true → assoc.name ∈ many

theorem length_addName_le {names : List String} :
    (addName names name).length ≤ names.length + 1 := by
  unfold addName
  split <;> simp

theorem length_enroll_le (h : many.length ≤ s.options.maxMany) :
    (enroll s info m many f).length ≤ s.options.maxMany := by
  unfold enroll
  split
  · exact h
  · split
    · rename_i hroom
      have hroom : many.length < s.options.maxMany := by
        simpa using (Bool.and_eq_true_iff.mp hroom).2
      exact length_addName_le.trans hroom
    · exact h

theorem length_foldl_enroll_le (h : many.length ≤ s.options.maxMany) :
    (fields.foldl (enroll s info m) many).length ≤ s.options.maxMany := by
  induction fields generalizing many with
  | nil => exact h
  | cons f fields ih => exact ih (length_enroll_le h)

/-- A selection set joins no more to-many associations than there is room for. -/
theorem length_enrolled_le : (enrolled s info m fields).length ≤ s.options.maxMany :=
  length_foldl_enroll_le (Nat.zero_le _)

theorem subset_enroll : many ⊆ enroll s info m many f := by
  unfold enroll
  split
  · exact List.Subset.refl _
  · split
    · exact fun _ hname => mem_addName.mpr (.inl hname)
    · exact List.Subset.refl _

theorem subset_foldl_enroll : many ⊆ fields.foldl (enroll s info m) many := by
  induction fields generalizing many with
  | nil => exact List.Subset.refl _
  | cons f fields ih => exact List.Subset.trans subset_enroll ih

theorem enroll_of_full (h : s.options.maxMany ≤ many.length) : enroll s info m many f = many := by
  unfold enroll
  split
  · rfl
  · exact if_neg (by simp [h])

/-- Without room nothing more is joined. -/
theorem foldl_enroll_of_full (h : s.options.maxMany ≤ many.length) :
    fields.foldl (enroll s info m) many = many := by
  induction fields with
  | nil => rfl
  | cons f fields ih => rw [List.foldl_cons, enroll_of_full h, ih]

theorem Joins.mono {many' : List String} (h : Joins info m many f assoc) (hsub : many ⊆ many') :
    Joins info m many' f assoc :=
  ⟨h.association, h.optimized, fun hmany => hsub (h.many hmany)⟩

/-- What a set joins after all its fields, it joins when it comes to the field. -/
theorem Joins.of_foldl (h : Joins info m (fields.foldl (enroll s info m) (enroll s info m many f)) f
    assoc) : Joins info m (enroll s info m many f) f assoc := by
  refine ⟨h.association, h.optimized, fun hmany => ?_⟩
  by_cases hroom : many.length < s.options.maxMany
  · have henroll : enroll s info m many f = addName many assoc.name := by
      simp [enroll, h.association, h.optimized, hmany, hroom]
    rw [henroll]
    exact mem_addName.mpr (.inr rfl)
  · have hfull := Nat.not_lt.mp hroom
    have hname := h.many hmany
    rwa [enroll_of_full hfull, foldl_enroll_of_full hfull, ← enroll_of_full hfull] at hname

/-! ## The selection sets that become one level -/

/-- The selection sets whose fields become the level at a path, with the model they are on: those of
the fields that are joined along the path. -/
def levelsAt (s : Schema) (info : ExecutionInfo) :
    List String → Model → List Field → List (Model × List Field)
  | [], m, fields => [(m, fields)]
  | hop :: hops, m, fields => fields.flatMap fun f =>
    match f.association? m with
    | none => []
    | some assoc =>
      if assoc.name = hop ∧ f.isOptimized info = true ∧
          (assoc.kind.isMany = true → assoc.name ∈ enrolled s info m fields) then
        match s.model assoc.target, info.expand f.selections with
        | .ok target, .ok below => levelsAt s info hops target below
        | _, _ => []
      else []

theorem mem_levelsAt_cons {hop : String} :
    (parent, here) ∈ levelsAt s info (hop :: hops) m fields ↔
      ∃ f ∈ fields, ∃ assoc t below, Joins info m (enrolled s info m fields) f assoc ∧
        assoc.name = hop ∧ s.model assoc.target = .ok t ∧
        info.expand f.selections = .ok below ∧ (parent, here) ∈ levelsAt s info hops t below := by
  rw [levelsAt, List.mem_flatMap]
  refine exists_congr fun f => and_congr_right fun _ => ?_
  constructor
  · intro h
    split at h
    · cases h
    · rename_i assoc hassoc
      split at h
      · rename_i hjoins
        split at h
        · rename_i t below ht hbelow
          exact ⟨assoc, t, below, ⟨hassoc, hjoins.2.1, hjoins.2.2⟩, hjoins.1, ht, hbelow, h⟩
        · cases h
      · cases h
  · rintro ⟨assoc, t, below, hjoins, hname, ht, hbelow, h⟩
    rw [hjoins.association]
    dsimp only
    rw [if_pos ⟨hname, hjoins.optimized, hjoins.many⟩, ht, hbelow]
    exact h

theorem modelAt_of_mem_levelsAt (h : (parent, here) ∈ levelsAt s info hops m fields) :
    s.modelAt m hops = .ok parent := by
  induction hops generalizing m fields with
  | nil =>
    cases List.mem_singleton.mp h
    rfl
  | cons hop hops ih =>
    obtain ⟨f, -, assoc, t, below, hjoins, hname, ht, -, h⟩ := mem_levelsAt_cons.mp h
    have hf : s.follow m hop = .ok (assoc, t) :=
      hname ▸ Schema.follow_eq_ok.mpr ⟨association?_of_asked hjoins.association, ht⟩
    exact Schema.modelAt_cons.mpr ⟨assoc, t, hf, ih h⟩

/-- The last hop of a path is a to-many association. -/
def manyAt (s : Schema) : List String → Model → Bool
  | [], _ => false
  | [hop], m => (m.association? hop).any (·.kind.isMany)
  | hop :: hops, m =>
    match s.follow m hop with
    | .ok (_, t) => manyAt s hops t
    | .error _ => false

theorem manyAt_cons {hop : String} (hf : s.follow m hop = .ok (assoc, t)) :
    manyAt s (hop :: hops) m = true ↔
      hops = [] ∧ assoc.kind.isMany = true ∨ manyAt s hops t = true := by
  cases hops with
  | nil => simp [manyAt, (Schema.follow_eq_ok.mp hf).1]
  | cons next rest => simp [manyAt, hf]

/-! ## What is selected -/

/-- A node that is loaded by a query of its own, or selects something. -/
def Loads (n : Include) : Prop := n.separate = true ∨ n.attributes ≠ []

/-- What is selected at a path; at the root it is given. -/
def selectedAt (root : List String) (ns : List Include) : List String → List String
  | [] => root
  | path => ((bareAt? path ns).map (·.attributes)).getD []

theorem mem_selectedAt_cons {root : List String} {x hop : String} :
    x ∈ selectedAt root ns (hop :: path) ↔
      ∃ n, bareAt? (hop :: path) ns = some n ∧ x ∈ n.attributes := by
  change x ∈ ((bareAt? (hop :: path) ns).map (·.attributes)).getD [] ↔ _
  cases bareAt? (hop :: path) ns <;> simp

/-- A tree selects at a path all that a node selects. -/
def Covers (ns : List Include) (path : List String) (n : Include) : Prop :=
  ∃ n', bareAt? path ns = some n' ∧ n.attributes ⊆ n'.attributes

theorem covers_self (h : bareAt? path ns = some n) : Covers ns path n := ⟨n, h, List.Subset.refl _⟩

theorem Covers.trans (h : Covers ns path n)
    (H : ∀ n, bareAt? path ns = some n → Covers ns' path n) : Covers ns' path n := by
  obtain ⟨n₁, hn₁, hsub⟩ := h
  obtain ⟨n', hn', hsub'⟩ := H n₁ hn₁
  exact ⟨n', hn', List.Subset.trans hsub hsub'⟩

/-- All that the nodes of a tree select is selected at the same paths of another, and nothing else,
and where the other loads something the first one does. -/
structure Carries (ns ns' : List Include) : Prop where
  covers : ∀ path n, bareAt? path ns = some n → Covers ns' path n
  selectedAt_subset : ∀ path, selectedAt [] ns' path ⊆ selectedAt [] ns path
  loads : ∀ path n', bareAt? path ns' = some n' → n'.Loads →
    ∃ n, bareAt? path ns = some n ∧ n.Loads

namespace Carries

theorem refl (ns : List Include) : Carries ns ns where
  covers _ _ := covers_self
  selectedAt_subset _ := List.Subset.refl _
  loads _ n hn h := ⟨n, hn, h⟩

theorem trans (h : Carries ns ns₁) (h' : Carries ns₁ ns') : Carries ns ns' where
  covers path n hn := (h.covers path n hn).trans (h'.covers path)
  selectedAt_subset path :=
    List.Subset.trans (h'.selectedAt_subset path) (h.selectedAt_subset path)
  loads path n' hn' hloads := by
    obtain ⟨n₁, hn₁, hloads⟩ := h'.loads path n' hn' hloads
    exact h.loads path n₁ hn₁ hloads

/-- Hops load nothing. -/
theorem of_extends (h : Extends T ns ns') : Carries ns ns' where
  covers path n hn := by
    obtain ⟨inner, hn'⟩ := h.exists_extended hn
    exact ⟨_, hn', List.Subset.refl _⟩
  selectedAt_subset path x hx := by
    cases path with
    | nil => exact hx
    | cons hop rest =>
      obtain ⟨n', hn', hx⟩ := mem_selectedAt_cons.mp hx
      obtain ⟨n, inner, hn, rfl⟩ | ⟨-, ⟨assoc, t, inner, rfl⟩, -⟩ := h.exists_node hn'
      · exact mem_selectedAt_cons.mpr ⟨n, hn, hx⟩
      · cases hx
  loads path n' hn' hloads := by
    obtain ⟨n, inner, hn, rfl⟩ | ⟨-, ⟨assoc, t, inner, rfl⟩, -⟩ := h.exists_node hn'
    · exact ⟨n, hn, hloads⟩
    · rcases hloads with hs | hattributes
      · cases hs
      · exact (hattributes rfl).elim

theorem mem_selectedAt {root : List String} {x : String} (h : Carries ns ns') :
    x ∈ selectedAt root ns' path ↔ x ∈ selectedAt root ns path := by
  cases path with
  | nil => rfl
  | cons hop rest =>
    refine ⟨fun hx => h.selectedAt_subset (hop :: rest) hx, fun hx => ?_⟩
    obtain ⟨n, hn, hx⟩ := mem_selectedAt_cons.mp hx
    obtain ⟨n', hn', hsub⟩ := h.covers _ n hn
    exact mem_selectedAt_cons.mpr ⟨n', hn', hsub hx⟩

end Carries

/-- A merge selects what its sides select. -/
theorem mem_selectedAt_mergeAll {x : String} (hns : Forest s Q m ns) (hbs : Forest s Q m bs)
    (h : mergeAll ns bs = .ok ns') :
    x ∈ selectedAt [] ns' path ↔ x ∈ selectedAt [] ns path ∨ x ∈ selectedAt [] bs path := by
  cases path with
  | nil => simp [selectedAt]
  | cons hop rest =>
    change x ∈ ((bareAt? (hop :: rest) ns').map (·.attributes)).getD [] ↔
      x ∈ ((bareAt? (hop :: rest) ns).map (·.attributes)).getD [] ∨
        x ∈ ((bareAt? (hop :: rest) bs).map (·.attributes)).getD []
    rw [bareAt?_mergeAll hns hbs h]
    cases bareAt? (hop :: rest) ns <;> cases bareAt? (hop :: rest) bs <;>
      simp [mergeBare, mem_foldl_addName]

/-- A merge selects all that either side selects. -/
theorem covers_mergeAll (hns : Forest s Q m ns) (hbs : Forest s Q m bs)
    (h : mergeAll ns bs = .ok ns') (hn : bareAt? path ns = some n ∨ bareAt? path bs = some n) :
    Covers ns' path n := by
  rw [Covers, bareAt?_mergeAll hns hbs h]
  rcases hn with hn | hn
  · rw [hn]
    cases bareAt? path bs with
    | none => exact ⟨n, rfl, List.Subset.refl _⟩
    | some b => exact ⟨_, rfl, fun _ hname => mem_foldl_addName.mpr (.inl hname)⟩
  · rw [hn]
    cases bareAt? path ns with
    | none => exact ⟨n, rfl, List.Subset.refl _⟩
    | some a => exact ⟨_, rfl, fun _ hname => mem_foldl_addName.mpr (.inr hname)⟩

/-- Where a merge loads something, one of its sides does. -/
theorem loads_mergeAll (hns : Forest s Q m ns) (hbs : Forest s Q m bs)
    (h : mergeAll ns bs = .ok ns') (hn : bareAt? path ns' = some n) (hloads : n.Loads) :
    (∃ a, bareAt? path ns = some a ∧ a.Loads) ∨ ∃ b, bareAt? path bs = some b ∧ b.Loads := by
  rw [bareAt?_mergeAll hns hbs h] at hn
  generalize bareAt? path ns = a?, bareAt? path bs = b? at hn ⊢
  rcases a? with _ | a <;> rcases b? with _ | b <;> cases hn
  · exact .inr ⟨n, rfl, hloads⟩
  · exact .inl ⟨n, rfl, hloads⟩
  · rcases hloads with hs | hattributes
    · refine (Bool.or_eq_true_iff.mp hs).imp ?_ ?_
      · exact fun hs => ⟨a, rfl, .inl hs⟩
      · exact fun hs => ⟨b, rfl, .inl hs⟩
    · by_cases ha : a.attributes = []
      · refine .inr ⟨b, rfl, .inr fun hb => hattributes ?_⟩
        simp [mergeBare, ha, hb]
      · exact .inl ⟨a, rfl, .inr ha⟩

/-! ## One field -/

/-- What a field does to a level: the column it asks for is selected, and if it asks for an
association that is joined, its node is merged in. -/
structure Level.Takes (s : Schema) (info : ExecutionInfo)
    (planTarget : Model → List Field → Except PlanError Level) (m : Model) (f : Field)
    (level level' : Level) : Prop where
  attributes : ∀ x, x ∈ level'.attributes ↔ x ∈ level.attributes ∨ f.column? m = some x
  many : level'.many = enroll s info m level.many f
  includes : level'.includes = level.includes ∧ (∀ assoc, ¬Joins info m level'.many f assoc) ∨
    ∃ assoc node, Joins info m level'.many f assoc ∧ ofField s info planTarget assoc f = .ok node ∧
      mergeAll level.includes [node] = .ok level'.includes

theorem enroll_eq (hassoc : f.association? m = some assoc) (hoptimized : f.isOptimized info = true)
    (hroom : assoc.kind.isMany = true → assoc.name ∉ many → many.length < s.options.maxMany) :
    enroll s info m many f =
      if assoc.kind.isMany && !many.contains assoc.name then many ++ [assoc.name] else many := by
  by_cases hmany : assoc.kind.isMany = true
  · by_cases hname : assoc.name ∈ many
    · simp [enroll, hassoc, hoptimized, hmany, addName, hname]
    · simp [enroll, hassoc, hoptimized, hmany, addName, hname, hroom hmany hname]
  · simp [enroll, hassoc, hoptimized, hmany]

theorem Level.takes_addAssociation (hassoc : f.association? m = some assoc)
    (h : level.addAssociation s info planTarget m assoc f = .ok level') :
    Level.Takes s info planTarget m f level level' := by
  have hattributes : ∀ x, x ∈ addName level.attributes (assoc.parentKey m) ↔
      x ∈ level.attributes ∨ f.column? m = some x := by
    simp [mem_addName, column?_of_asked hassoc, eq_comm]
  unfold Level.addAssociation at h
  dsimp only at h
  split at h
  · rename_i hoptimized
    cases h
    refine ⟨hattributes, by simp_all [enroll], .inl ⟨rfl, fun assoc' hjoins => ?_⟩⟩
    simp [hjoins.optimized] at hoptimized
  rename_i hoptimized
  have hoptimized : f.isOptimized info = true := by simpa using hoptimized
  split at h
  · rename_i hfull
    cases h
    simp only [Bool.and_eq_true, Bool.not_eq_true', decide_eq_true_eq] at hfull
    refine ⟨hattributes, (enroll_of_full hfull.2).symm, .inl ⟨rfl, fun assoc' hjoins => ?_⟩⟩
    cases hassoc.symm.trans hjoins.association
    simp [hjoins.many hfull.1.1] at hfull
  · rename_i hroom
    obtain ⟨node, hnode, h⟩ := bind_eq_ok.mp h
    obtain ⟨includes, hi, h⟩ := bind_eq_ok.mp h
    cases h
    have henroll : enroll s info m level.many f = _ := enroll_eq hassoc hoptimized
      fun hmany hname => by simpa [hmany, hname] using hroom
    refine ⟨hattributes, henroll.symm,
      .inr ⟨assoc, node, ⟨hassoc, hoptimized, fun hmany => ?_⟩, hnode, hi⟩⟩
    by_cases hname : assoc.name ∈ level.many <;> simp [hmany, hname]

theorem Level.takes_addField (h : level.addField s info planTarget m f = .ok level') :
    Level.Takes s info planTarget m f level level' := by
  -- A field that asks for no association selects at most an attribute.
  have hattribute : ∀ {attributes requested}, f.association? m = none →
      (∀ x, x ∈ attributes ↔ x ∈ level.attributes ∨ f.column? m = some x) →
      Level.Takes s info planTarget m f level { level with attributes, requested } := by
    intro attributes requested hnone hattributes
    refine ⟨hattributes, by simp [enroll, hnone], .inl ⟨rfl, fun assoc hjoins => ?_⟩⟩
    cases hnone.symm.trans hjoins.association
  unfold Level.addField at h
  split at h
  · rename_i hfound
    cases h
    refine hattribute (if_pos hfound) fun x => ?_
    simp [mem_addName, Field.column?, hfound, eq_comm]
  · rename_i hfound
    have hasked : f.association? m = m.associationForField? f.name := if_neg hfound
    split at h
    · rename_i assoc hassoc
      exact Level.takes_addAssociation (hasked.trans hassoc) h
    · rename_i hnone
      cases h
      refine hattribute (hasked.trans hnone) fun x => ?_
      simp [Field.column?, hfound, hnone]

theorem Joins.rooted (hjoins : Joins info m many f assoc)
    (hnode : ofField s info planTarget assoc f = .ok node)
    (hforest : ∀ {t fields level}, planTarget t fields = .ok level →
      Forest s (fun _ _ => True) t level.includes) : node.Rooted s (fun _ _ => True) m :=
  .ofField (filterClosed_true s).toFilterBuilt hnode (association?_of_asked hjoins.association)
    hforest

namespace Level.Takes

variable (h : Level.Takes s info planTarget m f level level')
  (hns : Forest s (fun _ _ => True) m level.includes)
  (hforest : ∀ {t fields level}, planTarget t fields = .ok level →
    Forest s (fun _ _ => True) t level.includes)
include h hns hforest

theorem forest : Forest s (fun _ _ => True) m level'.includes := by
  rcases h.includes with ⟨heq, -⟩ | ⟨assoc, node, hjoins, hnode, hi⟩
  · rwa [heq]
  · have hroot := hjoins.rooted hnode hforest
    exact forest_mergeAll hns (.singleton hroot) hi

theorem mem_selectedAt {x : String} : x ∈ selectedAt [] level'.includes path ↔
    x ∈ selectedAt [] level.includes path ∨ ∃ assoc node, Joins info m level'.many f assoc ∧
      ofField s info planTarget assoc f = .ok node ∧ x ∈ selectedAt [] [node] path := by
  rcases h.includes with ⟨heq, hnot⟩ | ⟨assoc, node, hjoins, hnode, hi⟩
  · rw [heq]
    refine (or_iff_left ?_).symm
    rintro ⟨assoc, _, hjoins, -⟩
    exact hnot assoc hjoins
  · have hroot := hjoins.rooted hnode hforest
    rw [mem_selectedAt_mergeAll hns (.singleton hroot) hi]
    refine or_congr_right ⟨fun hx => ⟨assoc, node, hjoins, hnode, hx⟩, ?_⟩
    rintro ⟨assoc', node', hjoins', hnode', hx⟩
    cases hjoins.association.symm.trans hjoins'.association
    cases hnode.symm.trans hnode'
    exact hx

omit hns hforest in
theorem exists_node (hj : Joins info m level'.many f assoc) :
    ∃ node, ofField s info planTarget assoc f = .ok node := by
  rcases h.includes with ⟨-, hnot⟩ | ⟨assoc', node, hjoins, hnode, -⟩
  · exact (hnot assoc hj).elim
  · cases hj.association.symm.trans hjoins.association
    exact ⟨node, hnode⟩

theorem loads (hn : bareAt? path level'.includes = some n) (hloads : n.Loads) :
    (∃ n, bareAt? path level.includes = some n ∧ n.Loads) ∨
    ∃ assoc node n, Joins info m level'.many f assoc ∧
      ofField s info planTarget assoc f = .ok node ∧ bareAt? path [node] = some n ∧ n.Loads := by
  rcases h.includes with ⟨heq, -⟩ | ⟨assoc, node, hjoins, hnode, hi⟩
  · exact .inl ⟨n, by rwa [← heq], hloads⟩
  · have hroot := hjoins.rooted hnode hforest
    refine (loads_mergeAll hns (.singleton hroot) hi hn hloads).imp id ?_
    rintro ⟨b, hb, hloads⟩
    exact ⟨assoc, node, b, hjoins, hnode, hb, hloads⟩

end Level.Takes

/-! ## All fields of a selection set -/

/-- What the fields of a selection set do to a level. -/
structure Level.Collects (s : Schema) (info : ExecutionInfo)
    (planTarget : Model → List Field → Except PlanError Level) (m : Model) (fields : List Field)
    (level level' : Level) : Prop where
  forest : Forest s (fun _ _ => True) m level'.includes
  attributes : ∀ x, x ∈ level'.attributes ↔ x ∈ level.attributes ∨ Asks m fields x
  many : level'.many = fields.foldl (enroll s info m) level.many
  node : ∀ f ∈ fields, ∀ assoc, Joins info m level'.many f assoc →
    ∃ node, ofField s info planTarget assoc f = .ok node
  selected : ∀ path x, x ∈ selectedAt [] level'.includes path ↔
    x ∈ selectedAt [] level.includes path ∨ ∃ f ∈ fields, ∃ assoc node,
      Joins info m level'.many f assoc ∧ ofField s info planTarget assoc f = .ok node ∧
        x ∈ selectedAt [] [node] path
  loads : ∀ path n', bareAt? path level'.includes = some n' → n'.Loads →
    (∃ n, bareAt? path level.includes = some n ∧ n.Loads) ∨
    ∃ f ∈ fields, ∃ assoc node n, Joins info m level'.many f assoc ∧
      ofField s info planTarget assoc f = .ok node ∧ bareAt? path [node] = some n ∧ n.Loads

theorem Level.collects (hns : Forest s (fun _ _ => True) m level.includes)
    (hforest : ∀ {t fields level}, planTarget t fields = .ok level →
      Forest s (fun _ _ => True) t level.includes)
    (h : fields.foldlM (Level.addField s info planTarget m) level = .ok level') :
    Level.Collects s info planTarget m fields level level' := by
  induction fields generalizing level with
  | nil =>
    cases h
    exact ⟨hns, by simp [Asks], rfl, List.forall_mem_nil _, by simp,
      fun _ n hn hloads => .inl ⟨n, hn, hloads⟩⟩
  | cons f fields ih =>
    obtain ⟨level₁, h₁, h⟩ := bind_eq_ok.mp h
    have htakes := Level.takes_addField h₁
    have htail := ih (htakes.forest hns hforest) h
    have hmany : level'.many = fields.foldl (enroll s info m) (enroll s info m level.many f) := by
      rw [htail.many, htakes.many]
    have hjoins : ∀ assoc, Joins info m level₁.many f assoc ↔ Joins info m level'.many f assoc := by
      intro assoc
      rw [htakes.many, hmany]
      exact ⟨fun hjoins => hjoins.mono subset_foldl_enroll, Joins.of_foldl⟩
    refine ⟨htail.forest, fun x => ?_, hmany, ?_, fun path x => ?_, fun path n hn hloads => ?_⟩
    · simp only [htail.attributes, htakes.attributes, Asks, List.mem_cons, or_and_right, exists_or,
        exists_eq_left, or_assoc]
    · refine List.forall_mem_cons.mpr ⟨fun assoc hj => ?_, htail.node⟩
      exact htakes.exists_node ((hjoins assoc).mpr hj)
    · simp only [htail.selected, htakes.mem_selectedAt hns hforest, hjoins, List.mem_cons,
        or_and_right, exists_or, exists_eq_left, or_assoc]
    · rcases htail.loads path n hn hloads with
        ⟨n₁, hn₁, hloads₁⟩ | ⟨g, hg, assoc, node, c, hjoins, hnode, hc, hloads⟩
      · refine (htakes.loads hns hforest hn₁ hloads₁).imp id ?_
        rintro ⟨assoc, node, c, hj, hnode, hc, hloads⟩
        exact ⟨f, List.mem_cons_self, assoc, node, c, (hjoins assoc).mp hj, hnode, hc, hloads⟩
      · exact .inr ⟨g, List.mem_cons_of_mem _ hg, assoc, node, c, hjoins, hnode, hc, hloads⟩

/-! ## All levels -/

/-- The arguments of a field add to its node the hops of its filter. -/
theorem carries_applyArguments {args : Arguments} (h : applyArguments s t n args = .ok node)
    (hns : Forest s Q t n.includes) :
    node.name = n.name ∧ node.attributes = n.attributes ∧ Carries n.includes node.includes := by
  unfold Include.applyArguments at h
  split at h
  · obtain ⟨n₁, ⟨⟩, h⟩ := bind_eq_ok.mp h
    cases h
    exact ⟨rfl, rfl, .refl _⟩
  · obtain ⟨filter, -, h⟩ := bind_eq_ok.mp h
    obtain ⟨includes, hi, h⟩ := bind_eq_ok.mp h
    obtain ⟨n₁, ⟨⟩, h⟩ := bind_eq_ok.mp h
    cases h
    exact ⟨rfl, rfl, .of_extends (extends_attachFilter hns hi)⟩

/-- The node of a field has what was planned for its selection set, with the hops of its filter, and
if there may be many rows, the primary key. -/
theorem ofField_eq_ok (h : ofField s info planTarget assoc f = .ok node)
    (hforest : ∀ {t fields level}, planTarget t fields = .ok level →
      Forest s (fun _ _ => True) t level.includes) : ∃ t below level,
    s.model assoc.target = .ok t ∧ info.expand f.selections = .ok below ∧
      planTarget t below = .ok level ∧ node.name = assoc.name ∧
      (∀ x, x ∈ node.attributes ↔
        x ∈ level.attributes ∨ assoc.kind.isMany = true ∧ x = t.primaryKey) ∧
      Carries level.includes node.includes := by
  obtain ⟨t, ht, h⟩ := bind_eq_ok.mp h
  obtain ⟨below, hbelow, h⟩ := bind_eq_ok.mp h
  obtain ⟨level, hlevel, h⟩ := bind_eq_ok.mp h
  obtain ⟨args, -, h⟩ := bind_eq_ok.mp h
  have hmem : ∀ x, x ∈ (if assoc.kind.isMany then
      addName level.attributes t.primaryKey else level.attributes) ↔
        x ∈ level.attributes ∨ assoc.kind.isMany = true ∧ x = t.primaryKey := by
    intro x
    split <;> simp_all [mem_addName]
  refine ⟨t, below, level, ht, hbelow, hlevel, ?_⟩
  cases args with
  | none =>
    cases h
    exact ⟨rfl, hmem, .refl _⟩
  | some args =>
    obtain ⟨hname, hattributes, hcarries⟩ := carries_applyArguments h (hforest hlevel)
    exact ⟨hname, hattributes ▸ hmem, hcarries⟩

/-- What the node of a field selects, from what is planned for its selection set. -/
theorem mem_selectedAt_node {x : String} (hcarries : Carries level.includes node.includes)
    (hattributes : ∀ x, x ∈ node.attributes ↔
      x ∈ level.attributes ∨ assoc.kind.isMany = true ∧ x = t.primaryKey) :
    x ∈ selectedAt [] [node] (node.name :: path) ↔
      x ∈ selectedAt level.attributes level.includes path ∨
        path = [] ∧ assoc.kind.isMany = true ∧ x = t.primaryKey := by
  have hself : child? node.name [node] = some node := by simp [child?]
  cases path with
  | nil =>
    have hhere : selectedAt [] [node] [node.name] = node.attributes := by
      change ((bareAt? [node.name] [node]).map (·.attributes)).getD [] = _
      rw [bareAt?_singleton, hself]
      rfl
    rw [hhere, hattributes]
    simp [selectedAt]
  | cons next rest =>
    have hbelow : selectedAt [] [node] (node.name :: next :: rest) =
        selectedAt level.attributes node.includes (next :: rest) := by
      change ((bareAt? (node.name :: next :: rest) [node]).map (·.attributes)).getD [] = _
      rw [bareAt?_cons_cons, hself]
      rfl
    rw [hbelow, hcarries.mem_selectedAt]
    simp

theorem name_of_mem_selectedAt {x hop : String} (h : x ∈ selectedAt [] [node] (hop :: path)) :
    node.name = hop := by
  obtain ⟨n, hn, -⟩ := mem_selectedAt_cons.mp h
  by_contra hne
  have hnone : child? hop [node] = none := child?_eq_none.mpr (by simpa using Ne.symm hne)
  cases path with
  | nil => simp [bareAt?_singleton, hnone] at hn
  | cons next rest => simp [bareAt?_cons_cons, hnone] at hn

/-- The level of a selection set selects at every path of it what is asked for there, and for a
to-many association the primary key; and what it loads there is asked for. -/
structure Level.Asked (s : Schema) (info : ExecutionInfo) (m : Model) (fields : List Field)
    (level : Level) : Prop where
  selected : ∀ path x, x ∈ selectedAt level.attributes level.includes path ↔
    ∃ t here, (t, here) ∈ levelsAt s info path m fields ∧
      (Asks t here x ∨ manyAt s path m = true ∧ x = t.primaryKey)
  loads : ∀ path name n, bareAt? (path ++ [name]) level.includes = some n → n.Loads →
    ∃ parent here, (parent, here) ∈ levelsAt s info path m fields ∧ ∃ f ∈ here, ∃ assoc,
      Joins info parent (enrolled s info parent here) f assoc ∧ assoc.name = name

/-- The keys of all associations that are asked for are selected. -/
theorem Level.Asked.key (h : Level.Asked s info m fields level)
    (hmem : (parent, here) ∈ levelsAt s info path m fields) (hf : f ∈ here)
    (hassoc : f.association? parent = some assoc) :
    assoc.parentKey parent ∈ selectedAt level.attributes level.includes path :=
  (h.selected path _).mpr ⟨parent, here, hmem, .inl ⟨f, hf, column?_of_asked hassoc⟩⟩

section
variable (hall : Level.Collects s info planTarget m fields {} level)
  (hforest : ∀ {t fields level}, planTarget t fields = .ok level →
    Forest s (fun _ _ => True) t level.includes)
  (ih : ∀ {t fields level}, planTarget t fields = .ok level → Level.Asked s info t fields level)
include hall hforest ih

theorem Level.Collects.mem_selectedAt {x : String} :
    x ∈ selectedAt level.attributes level.includes path ↔
      ∃ t here, (t, here) ∈ levelsAt s info path m fields ∧
        (Asks t here x ∨ manyAt s path m = true ∧ x = t.primaryKey) := by
  cases path with
  | nil => simp [selectedAt, levelsAt, manyAt, hall.attributes]
  | cons hop rest =>
    have hmany : level.many = enrolled s info m fields := hall.many
    have hhere : x ∈ selectedAt level.attributes level.includes (hop :: rest) ↔ _ :=
      hall.selected (hop :: rest) x
    rw [hhere]
    constructor
    · rintro (hx | ⟨f, hf, assoc, node, hjoins, hnode, hx⟩)
      · obtain ⟨n, hn, -⟩ := mem_selectedAt_cons.mp hx
        rw [bareAt?_nil] at hn
        cases hn
      obtain ⟨t, below, level', ht, hbelow, hlevel, hname, hattributes, hcarries⟩ :=
        ofField_eq_ok hnode hforest
      have hhop := name_of_mem_selectedAt hx
      subst hhop
      have hfollow : s.follow m node.name = .ok (assoc, t) := hname ▸
        Schema.follow_eq_ok.mpr ⟨association?_of_asked hjoins.association, ht⟩
      have hmem : ∀ {t' here}, (t', here) ∈ levelsAt s info rest t below →
          (t', here) ∈ levelsAt s info (node.name :: rest) m fields := fun h =>
        mem_levelsAt_cons.mpr ⟨f, hf, assoc, t, below, hmany ▸ hjoins, hname.symm, ht, hbelow, h⟩
      rcases (mem_selectedAt_node hcarries hattributes).mp hx with hx | ⟨rfl, hkind, rfl⟩
      · obtain ⟨t', here, hlevels, hx⟩ := ((ih hlevel).selected rest x).mp hx
        refine ⟨t', here, hmem hlevels, hx.imp id fun hx => ⟨?_, hx.2⟩⟩
        exact (manyAt_cons hfollow).mpr (.inr hx.1)
      · exact ⟨t, below, hmem (List.mem_singleton_self _),
          .inr ⟨(manyAt_cons hfollow).mpr (.inl ⟨rfl, hkind⟩), rfl⟩⟩
    · rintro ⟨t', here, hlevels, hx⟩
      obtain ⟨f, hf, assoc, t, below, hjoins, rfl, ht, hbelow, hlevels⟩ :=
        mem_levelsAt_cons.mp hlevels
      obtain ⟨node, hnode⟩ := hall.node f hf assoc (hmany ▸ hjoins)
      obtain ⟨t₁, below₁, level', ht₁, hbelow₁, hlevel, hname, hattributes, hcarries⟩ :=
        ofField_eq_ok hnode hforest
      cases ht.symm.trans ht₁
      cases hbelow.symm.trans hbelow₁
      have hfollow : s.follow m assoc.name = .ok (assoc, t) :=
        Schema.follow_eq_ok.mpr ⟨association?_of_asked hjoins.association, ht⟩
      refine .inr ⟨f, hf, assoc, node, hmany ▸ hjoins, hnode, ?_⟩
      rw [← hname, mem_selectedAt_node hcarries hattributes, (ih hlevel).selected]
      rcases hx with hx | ⟨hlast, rfl⟩
      · exact .inl ⟨t', here, hlevels, .inl hx⟩
      · rcases (manyAt_cons hfollow).mp hlast with ⟨rfl, hkind⟩ | hlast
        · cases List.mem_singleton.mp hlevels
          exact .inr ⟨rfl, hkind, rfl⟩
        · exact .inl ⟨t', here, hlevels, .inr ⟨hlast, rfl⟩⟩

theorem Level.Collects.exists_asked (hn : bareAt? (path ++ [name]) level.includes = some n)
    (hloads : n.Loads) :
    ∃ parent here, (parent, here) ∈ levelsAt s info path m fields ∧ ∃ f ∈ here, ∃ assoc,
      Joins info parent (enrolled s info parent here) f assoc ∧ assoc.name = name := by
  have hmany : level.many = enrolled s info m fields := hall.many
  obtain ⟨c, hc, -⟩ | ⟨f, hf, assoc, node, c, hjoins, hnode, hc, hloads⟩ :=
    hall.loads _ n hn hloads
  · rw [bareAt?_nil] at hc
    cases hc
  obtain ⟨t, below, level', ht, hbelow, hlevel, hname, -, hcarries⟩ := ofField_eq_ok hnode hforest
  cases path with
  | nil =>
    obtain ⟨d, hd, -⟩ := Option.map_eq_some_iff.mp hc
    have hd : child? name [node] = some d := hd
    cases List.mem_singleton.mp (mem_of_child? hd)
    exact ⟨m, fields, List.mem_singleton_self _, f, hf, assoc, hmany ▸ hjoins,
      hname.symm.trans (name_of_child? hd)⟩
  | cons hop rest =>
    obtain ⟨next, below', heq⟩ := List.exists_cons_of_ne_nil
      (List.append_ne_nil_of_right_ne_nil rest (List.cons_ne_nil name []))
    rw [List.cons_append, heq] at hc
    obtain ⟨hself, hc⟩ := bareAt?_below_singleton hc
    obtain ⟨d, hd, hloads⟩ := hcarries.loads _ c hc hloads
    rw [← heq] at hd
    obtain ⟨parent, here, hmem, hasked⟩ := (ih hlevel).loads rest name d hd hloads
    exact ⟨parent, here, mem_levelsAt_cons.mpr ⟨f, hf, assoc, t, below, hmany ▸ hjoins,
      hname.symm.trans (name_of_child? hself), ht, hbelow, hmem⟩, hasked⟩

end

theorem Level.asked_planLevel {depth : Nat} (h : planLevel s info depth m fields = .ok level) :
    Level.Asked s info m fields level := by
  have hforest : ∀ {depth m fields level}, planLevel s info depth m fields = .ok level →
      Forest s (fun _ _ => True) m level.includes :=
    Level.forest_planLevel (filterClosed_true s).toFilterBuilt
  induction depth generalizing m fields level with
  | zero => cases h
  | succ depth ih =>
    have hall : Level.Collects s info (planLevel s info depth) m fields {} level :=
      Level.collects .nil hforest h
    exact ⟨fun path x => hall.mem_selectedAt hforest ih,
      fun path name n hn hloads => hall.exists_asked hforest ih hn hloads⟩

end Include

end RelQuery

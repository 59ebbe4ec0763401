import RelQuery.Proofs.Filter.Hops
import RelQuery.Proofs.Include.Paths

/-!
# What leads through a node

A node that a field asks for selects something, to-many ones at least their key. The other to-many
nodes of a selection are there because the filter of a node above them goes through them, and nodes
with a page of their own are separate. Every level that is planned is accounted for in this way.
-/

namespace RelQuery

namespace Include

open RelQuery.Filter (GoesAlong)

variable {s : Schema} {Q Q' : Model → Filter → Prop} {m t : Model} {assoc : Association}
  {a b n n' : Include} {ns ns' bs : List Include} {f : Filter} {name : String}
  {hops path base : List String}

/-- A filter adds the nodes that its comparisons go through. -/
theorem extends_attachFilter (hns : Forest s Q m ns) (h : attachFilter s m f ns = .ok ns') :
    Extends (GoesAlong (some f)) ns ns' := by
  obtain ⟨ns₁, h₁, h⟩ := bind_eq_ok.mp h
  have hns₁ : Forest s Q m ns₁ :=
    foldlM_preserves (P := Forest s Q m) (fun _ _ _ _ hns h => hns.ensurePath h) hns h₁
  have hpaths : Extends (GoesAlong (some f)) ns ns₁ := by
    refine (extends_foldlM_ensurePath AttributePath.hops hns h₁).mono fun hops hhops => ?_
    exact Filter.goesAlong_some.mpr hhops
  have hnegated : Extends (GoesAlong (some f)) ns₁ ns' := by
    refine (extends_foldlM_ensurePath id hns₁ h).mono ?_
    rintro _ ⟨hops, hhops, rfl⟩
    obtain ⟨-, path, hpath, hr⟩ := Filter.mem_negatedHops_iff.mp hhops
    exact ⟨path, true, hpath, f, rfl, hr⟩
  exact hpaths.trans hnegated

/-! ## Through a node -/

/-- The filter of a node above the end of the path goes through it. -/
def FilterThrough (ns : List Include) (path : List String) : Prop :=
  ∃ above below n hops, path = above ++ below ∧ below ≠ [] ∧ bareAt? above ns = some n ∧
    GoesAlong n.filter hops ∧ below <+: hops

/-- What filters go through in one tree they go through in another that has them all. -/
theorem FilterThrough.mono (h : FilterThrough ns path)
    (H : ∀ above n hops, bareAt? above ns = some n → GoesAlong n.filter hops →
      ∃ n', bareAt? above ns' = some n' ∧ GoesAlong n'.filter hops) : FilterThrough ns' path := by
  obtain ⟨above, below, n, hops, hpath, hne, hn, hgoes, hbelow⟩ := h
  obtain ⟨n', hn', hgoes'⟩ := H above n hops hn hgoes
  exact ⟨above, below, n', hops, hpath, hne, hn', hgoes', hbelow⟩

theorem FilterThrough.extends {T : List String → Prop} (h : FilterThrough ns path)
    (hext : Extends T ns ns') : FilterThrough ns' path := by
  refine h.mono fun above n hops hn hgoes => ?_
  obtain ⟨inner, hn'⟩ := hext.exists_extended hn
  exact ⟨_, hn', hgoes⟩

theorem FilterThrough.cons (hn : child? name ns = some n) (h : FilterThrough n.includes path) :
    FilterThrough ns (name :: path) := by
  obtain ⟨above, below, c, hops, rfl, hne, hc, hgoes, hbelow⟩ := h
  refine ⟨name :: above, below, c, hops, rfl, hne, ?_, hgoes, hbelow⟩
  rcases above with _ | ⟨next, rest⟩
  · cases hc
  · rwa [bareAt?_under, under_of_child? hn]

/-- A path below a node has the filter of the node or of one below it through it. -/
def LeadsThrough (n : Include) (path : List String) : Prop :=
  (∃ hops, GoesAlong n.filter hops ∧ path <+: hops) ∨ FilterThrough n.includes path

/-- A filter through a path below a node is one above the node, which goes through the node itself,
or one of the node or below it. -/
theorem FilterThrough.append (hn : nodeAt? base ns = some n)
    (h : FilterThrough ns (base ++ path)) : FilterThrough ns base ∨ n.LeadsThrough path := by
  obtain ⟨above, below, c, hops, hpath, hne, hc, hgoes, hbelow⟩ := h
  have hhere : ∀ {c}, bareAt? base ns = some c → c.filter = n.filter := by
    intro c hc
    rw [bareAt?, hn] at hc
    cases hc
    rfl
  rcases List.append_eq_append_iff.mp hpath with ⟨middle, rfl, rfl⟩ | ⟨middle, rfl, rfl⟩
  · by_cases hmiddle : middle = []
    · subst hmiddle
      rw [List.append_nil] at hc
      exact .inr (.inl ⟨hops, hhere hc ▸ hgoes, hbelow⟩)
    · rw [bareAt?_append hn hmiddle] at hc
      exact .inr (.inr ⟨middle, below, c, hops, rfl, hne, hc, hgoes, hbelow⟩)
  · by_cases hmiddle : middle = []
    · subst hmiddle
      rw [List.append_nil] at hhere
      exact .inr (.inl ⟨hops, hhere hc ▸ hgoes, hbelow⟩)
    · exact .inl ⟨above, middle, c, hops, rfl, hmiddle, hc, hgoes,
        (List.prefix_append middle path).trans hbelow⟩

/-- A tree is accounted for: to-many nodes that select nothing have a filter through them, and nodes
with a page of their own are separate. -/
structure Accounted (ns : List Include) : Prop where
  many : ∀ path n, bareAt? path ns = some n → n.kind.isMany = true → n.attributes = [] →
    FilterThrough ns path
  page : ∀ path n, bareAt? path ns = some n → (n.limit.isSome ∨ n.offset.isSome) →
    n.separate = true

theorem accounted_nil : Accounted [] where
  many path n hn := by
    rw [bareAt?_nil] at hn
    cases hn
  page path n hn := by
    rw [bareAt?_nil] at hn
    cases hn

/-! ### Merges -/

theorem addName_ne_nil {names : List String} : addName names name ≠ [] := by
  unfold addName
  split
  · rename_i h
    exact List.ne_nil_of_mem (List.contains_iff_mem.mp h)
  · simp

theorem nil_of_foldl_addName {names more : List String} (h : more.foldl addName names = []) :
    names = [] := by
  induction more generalizing names with
  | nil => exact h
  | cons name more ih => exact (addName_ne_nil (ih h)).elim

theorem separate_mergeBare (ha : a.limit.isSome ∨ a.offset.isSome → a.separate = true)
    (hb : b.limit.isSome ∨ b.offset.isSome → b.separate = true)
    (h : (mergeBare a b).limit.isSome ∨ (mergeBare a b).offset.isSome) :
    (mergeBare a b).separate = true := by
  simp only [mergeBare, Option.isSome_or, Bool.or_eq_true] at h ⊢
  rcases h with (h | h) | (h | h)
  · exact .inl (ha (.inl h))
  · exact .inr (hb (.inl h))
  · exact .inl (ha (.inr h))
  · exact .inr (hb (.inr h))

theorem accounted_mergeAll (hns : Forest s Q m ns) (hbs : Forest s Q' m bs)
    (h : mergeAll ns bs = .ok ns') (ha : Accounted ns) (hb : Accounted bs) : Accounted ns' := by
  have hat : ∀ path, bareAt? path ns' =
      Option.merge mergeBare (bareAt? path ns) (bareAt? path bs) :=
    fun path => bareAt?_mergeAll hns hbs h
  have hleft : ∀ {path}, FilterThrough ns path → FilterThrough ns' path := by
    refine fun h => h.mono fun above n hops hn hgoes => ?_
    rw [hat, hn]
    cases bareAt? above bs with
    | none => exact ⟨n, rfl, hgoes⟩
    | some b => exact ⟨_, rfl, Filter.goesAlong_merge?.mpr (.inl hgoes)⟩
  have hright : ∀ {path}, FilterThrough bs path → FilterThrough ns' path := by
    refine fun h => h.mono fun above n hops hn hgoes => ?_
    rw [hat, hn]
    cases bareAt? above ns with
    | none => exact ⟨n, rfl, hgoes⟩
    | some a => exact ⟨_, rfl, Filter.goesAlong_merge?.mpr (.inr hgoes)⟩
  refine ⟨fun path n hn hmany hempty => ?_, fun path n hn hpage => ?_⟩
  · rw [hat] at hn
    generalize hna : bareAt? path ns = a?, hnb : bareAt? path bs = b? at hn
    rcases a? with _ | a <;> rcases b? with _ | b <;> cases hn
    · exact hright (hb.many path n hnb hmany hempty)
    · exact hleft (ha.many path n hna hmany hempty)
    · exact hleft (ha.many path a hna hmany (nil_of_foldl_addName hempty))
  · rw [hat] at hn
    generalize hna : bareAt? path ns = a?, hnb : bareAt? path bs = b? at hn
    rcases a? with _ | a <;> rcases b? with _ | b <;> cases hn
    · exact hb.page path n hnb hpage
    · exact ha.page path n hna hpage
    · exact separate_mergeBare (ha.page path a hna) (hb.page path b hnb) hpage

/-! ### Levels -/

theorem eq_bare_of_singleton {c : Include} (h : bareAt? [name] [n] = some c) : c = n.bare := by
  obtain ⟨d, hd, rfl⟩ := Option.map_eq_some_iff.mp h
  rw [List.mem_singleton.mp (mem_of_child? hd)]

theorem bareAt?_below_singleton {next : String} {rest : List String} {c : Include}
    (h : bareAt? (name :: next :: rest) [n] = some c) :
    child? name [n] = some n ∧ bareAt? (next :: rest) n.includes = some c := by
  rw [bareAt?_cons_cons] at h
  obtain ⟨d, hd, h⟩ := Option.bind_eq_some_iff.mp h
  cases List.mem_singleton.mp (mem_of_child? hd)
  exact ⟨hd, h⟩

/-- A node is accounted for if what is below it is, up to what its own filter goes through. -/
theorem accounted_singleton (hattributes : n.kind.isMany = true → n.attributes ≠ [])
    (hpage : n.limit.isSome ∨ n.offset.isSome → n.separate = true) (h : Accounted ns)
    (hext : Extends (GoesAlong n.filter) ns n.includes) : Accounted [n] := by
  refine ⟨fun path c hc hmany hempty => ?_, fun path c hc hc' => ?_⟩
  · rcases path with _ | ⟨name, _ | ⟨next, rest⟩⟩
    · cases hc
    · cases eq_bare_of_singleton hc
      exact (hattributes hmany hempty).elim
    · obtain ⟨hn, hc⟩ := bareAt?_below_singleton hc
      rcases hext.exists_node hc with ⟨d, inner, hd, rfl⟩ | ⟨-, -, hops, hgoes, hrest⟩
      · exact .cons hn ((h.many _ d hd hmany hempty).extends hext)
      · exact ⟨[name], next :: rest, n.bare, hops, rfl, List.cons_ne_nil _ _,
          congrArg (Option.map bare) hn, hgoes, hrest⟩
  · rcases path with _ | ⟨name, _ | ⟨next, rest⟩⟩
    · cases hc
    · cases eq_bare_of_singleton hc
      exact hpage hc'
    · obtain ⟨-, hc⟩ := bareAt?_below_singleton hc
      rcases hext.exists_node hc with ⟨d, inner, hd, rfl⟩ | ⟨-, hhop, -⟩
      · exact h.page _ d hd hc'
      · obtain ⟨-, hlimit, hoffset⟩ := hhop.plain
        simp [hlimit, hoffset] at hc'

variable {info : ExecutionInfo} {level level' : Level} {field : Field}
  {planTarget : Model → List Field → Except PlanError Level}

theorem accounted_applyArguments {args : Arguments} (h : applyArguments s t n args = .ok n')
    (hattributes : n.kind.isMany = true → n.attributes ≠ []) (hns : Forest s Q t n.includes)
    (ha : Accounted n.includes) : Accounted [n'] := by
  unfold Include.applyArguments at h
  split at h
  · obtain ⟨n₁, ⟨⟩, h⟩ := bind_eq_ok.mp h
    cases h
    exact accounted_singleton hattributes Bool.or_eq_true_iff.mpr ha (.refl _)
  · obtain ⟨f, -, h⟩ := bind_eq_ok.mp h
    obtain ⟨includes, hi, h⟩ := bind_eq_ok.mp h
    obtain ⟨n₁, ⟨⟩, h⟩ := bind_eq_ok.mp h
    cases h
    refine accounted_singleton hattributes Bool.or_eq_true_iff.mpr ha ?_
    exact (extends_attachFilter hns hi).mono fun _ => Filter.goesAlong_proper?.mpr

theorem accounted_ofField (h : ofField s info planTarget assoc field = .ok n)
    (hforest : ∀ {t fields level}, planTarget t fields = .ok level → Forest s Q t level.includes)
    (H : ∀ {t fields level}, planTarget t fields = .ok level → Accounted level.includes) :
    Accounted [n] := by
  obtain ⟨t, ht, h⟩ := bind_eq_ok.mp h
  obtain ⟨fields, -, h⟩ := bind_eq_ok.mp h
  obtain ⟨level, hlevel, h⟩ := bind_eq_ok.mp h
  obtain ⟨args, -, h⟩ := bind_eq_ok.mp h
  have hattributes : assoc.kind.isMany = true → (if assoc.kind.isMany then
      addName level.attributes t.primaryKey else level.attributes) ≠ [] := by
    intro hmany
    rw [if_pos hmany]
    exact addName_ne_nil
  cases args with
  | none =>
    cases h
    exact accounted_singleton hattributes (by simp) (H hlevel) (.refl _)
  | some args => exact accounted_applyArguments h hattributes (hforest hlevel) (H hlevel)

theorem Level.accounted_addAssociation
    (h : level.addAssociation s info planTarget m assoc field = .ok level')
    (hassoc : m.association? assoc.name = some assoc)
    (hforest : ∀ {t fields level}, planTarget t fields = .ok level →
      Forest s (fun _ _ => True) t level.includes)
    (H : ∀ {t fields level}, planTarget t fields = .ok level → Accounted level.includes)
    (hl : Forest s (fun _ _ => True) m level.includes) (ha : Accounted level.includes) :
    Accounted level'.includes := by
  unfold Level.addAssociation at h
  dsimp only at h
  split at h
  · cases h
    exact ha
  · split at h
    · cases h
      exact ha
    · obtain ⟨n, hn, h⟩ := bind_eq_ok.mp h
      obtain ⟨includes, hi, h⟩ := bind_eq_ok.mp h
      cases h
      have hroot := Rooted.ofField (filterClosed_true s).toFilterBuilt hn hassoc hforest
      exact accounted_mergeAll hl (.singleton hroot) hi ha (accounted_ofField hn hforest H)

theorem Level.accounted_planLevel {depth : Nat} {fields : List Field}
    (h : planLevel s info depth m fields = .ok level) : Accounted level.includes := by
  have hforest : ∀ {depth m fields level}, planLevel s info depth m fields = .ok level →
      Forest s (fun _ _ => True) m level.includes :=
    Level.forest_planLevel (filterClosed_true s).toFilterBuilt
  induction depth generalizing m fields level with
  | zero => cases h
  | succ depth ih =>
    refine (foldlM_preserves
      (P := fun level => Forest s (fun _ _ => True) m level.includes ∧ Accounted level.includes)
      (fun level field _ level' hl h => ?_) ⟨.nil, accounted_nil⟩ h).2
    obtain ⟨hl, ha⟩ := hl
    unfold Level.addField at h
    split at h
    · cases h
      exact ⟨hl, ha⟩
    · split at h
      · rename_i hassoc
        have hassoc := Model.association?_of_field hassoc
        exact ⟨forest_addAssociation (filterClosed_true s).toFilterBuilt h hassoc hforest hl,
          accounted_addAssociation h hassoc hforest ih hl ha⟩
      · cases h
        exact ⟨hl, ha⟩

theorem accounted_of_plan {model : String} {selections : List Selection} {p : PartialPlan}
    (h : Include.plan s info model selections none [] = .ok p) : Accounted p.includes := by
  obtain ⟨m, -, h⟩ := bind_eq_ok.mp h
  obtain ⟨fields, -, h⟩ := bind_eq_ok.mp h
  obtain ⟨level, hlevel, h⟩ := bind_eq_ok.mp h
  cases h
  exact Level.accounted_planLevel hlevel

end Include

end RelQuery

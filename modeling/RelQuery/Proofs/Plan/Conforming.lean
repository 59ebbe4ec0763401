import RelQuery.Proofs.Include.Through
import RelQuery.Proofs.Plan.Merging
import RelQuery.Proofs.Plan.Trees

/-!
# Include trees that conform to the schema

Siblings have distinct names, a node stands for the association of its name and selects attributes
of its target, and a to-many node that selects something selects the primary key of its target. The
tree of every plan is of that kind: node by node a pass at most adds nodes that select nothing, and
a merge selects what either side does.
-/

namespace RelQuery

namespace Include

variable {s : Schema} {Q : Model → Filter → Prop} {m t parent : Model} {assoc : Association}
  {a b n n' : Include} {ns ns' bs : List Include} {path : List String}

/-- A node stands for an association of the model it hangs from, and selects what the target has. -/
structure Conforms (s : Schema) (parent : Model) (n : Include) (assoc : Association) (t : Model) :
    Prop where
  association : parent.association? n.name = some assoc
  model : s.model assoc.target = .ok t
  target : n.target = assoc.target
  kind : n.kind = assoc.kind
  attributes : n.attributes ⊆ t.attributeNames
  key : n.kind.isMany = true → n.attributes ≠ [] → t.primaryKey ∈ n.attributes
  names : (n.includes.map (·.name)).Nodup

/-- All nodes below a model conform to the schema, with distinct names at every level. -/
structure Conforming (s : Schema) (m : Model) (ns : List Include) : Prop where
  names : (ns.map (·.name)).Nodup
  below : ∀ parent n, Below s m ns parent n → ∃ assoc t, n.Conforms s parent assoc t

/-! ## What nodes select -/

/-- A node selects attributes of its target, to-many ones that select something the key too. -/
structure Selects (t : Model) (n : Include) : Prop where
  attributes : n.attributes ⊆ t.attributeNames
  key : n.kind.isMany = true → n.attributes ≠ [] → t.primaryKey ∈ n.attributes

theorem Selects.of_nil (h : n.attributes = []) : n.Selects t where
  attributes := h ▸ List.nil_subset _
  key _ hne := (hne h).elim

theorem Selects.mergeBare (hkind : a.kind = b.kind) (ha : a.Selects t) (hb : b.Selects t) :
    (mergeBare a b).Selects t where
  attributes := foldl_addName_subset ha.attributes hb.attributes
  key hmany hne := by
    refine mem_foldl_addName.mpr ?_
    by_cases hempty : a.attributes = []
    · refine .inr (hb.key (hkind ▸ hmany) fun hb => hne ?_)
      rw [Include.mergeBare, hempty, hb]
      rfl
    · exact .inl (ha.key hmany hempty)

/-- Every node of a tree selects what its target has. -/
def AllSelect (s : Schema) (ns : List Include) : Prop :=
  ∀ path n, bareAt? path ns = some n → ∀ t, s.model n.target = .ok t → n.Selects t

/-- Nodes that select the same from the same target. -/
structure SameSelection (n n' : Include) : Prop where
  target : n'.target = n.target
  kind : n'.kind = n.kind
  attributes : n'.attributes = n.attributes

theorem AllSelect.of_rel (h : AllSelect s ns)
    (H : ∀ path, Option.Rel SameSelection (bareAt? path ns) (bareAt? path ns')) :
    AllSelect s ns' := by
  intro path n' hn' t ht
  obtain ⟨n, hn, hsame⟩ := exists_left_of_rel (H path) hn'
  obtain ⟨hattributes, hkey⟩ := h path n hn t (hsame.target ▸ ht)
  exact ⟨hsame.attributes ▸ hattributes, by rw [hsame.kind, hsame.attributes]; exact hkey⟩

theorem AllSelect.extends {T : List String → Prop} (h : AllSelect s ns) (hext : Extends T ns ns') :
    AllSelect s ns' := by
  intro path n' hn' t ht
  rcases hext.exists_node hn' with ⟨n, inner, hn, rfl⟩ | ⟨-, ⟨assoc, u, inner, rfl⟩, -⟩
  · obtain ⟨hattributes, hkey⟩ := h path n hn t ht
    exact ⟨hattributes, hkey⟩
  · exact .of_nil rfl

theorem AllSelect.mergeAll (hns : Forest s Q m ns) (hbs : Forest s Q m bs) (ha : AllSelect s ns)
    (hb : AllSelect s bs) (h : mergeAll ns bs = .ok ns') : AllSelect s ns' := by
  intro path n hn t ht
  rw [bareAt?_mergeAll hns hbs h] at hn
  generalize hna : bareAt? path ns = a?, hnb : bareAt? path bs = b? at hn
  rcases a? with _ | a <;> rcases b? with _ | b <;> cases hn
  · exact hb path n hnb t ht
  · exact ha path n hna t ht
  · obtain ⟨x, hx, rfl⟩ := Option.map_eq_some_iff.mp hna
    obtain ⟨y, hy, rfl⟩ := Option.map_eq_some_iff.mp hnb
    obtain ⟨parent, hrx, hry, hname⟩ := rooted_of_nodeAt? hns hbs hx hy
    obtain ⟨assoc, u, hf⟩ := hrx.exists_follow
    have hf' := hname ▸ hf
    have htarget : y.target = x.target := (hry.target hf').trans (hrx.target hf).symm
    have hkind : x.kind = y.kind := (hrx.kind hf).trans (hry.kind hf').symm
    have ht : s.model x.target = .ok t := ht
    exact .mergeBare hkind (ha path _ hna t ht) (hb path _ hnb t (htarget ▸ ht))

theorem AllSelect.singleton (hn : ∀ t, s.model n.target = .ok t → n.Selects t)
    (h : AllSelect s n.includes) : AllSelect s [n] := by
  intro path c hc t ht
  rcases path with _ | ⟨name, _ | ⟨next, rest⟩⟩
  · cases hc
  · cases eq_bare_of_singleton hc
    obtain ⟨hattributes, hkey⟩ := hn t ht
    exact ⟨hattributes, hkey⟩
  · exact h _ c (bareAt?_below_singleton hc).2 t ht

/-- A forest whose nodes select what their targets have. -/
structure Tidy (s : Schema) (m : Model) (ns : List Include) : Prop where
  forest : Forest s (fun _ _ => True) m ns
  selects : AllSelect s ns

/-- Every way to put include trees together keeps them tidy. -/
theorem kept_tidy (hs : s.Sound) : Kept s (Tidy s) where
  nil := ⟨.nil, fun path n hn => by
    rw [bareAt?_nil] at hn
    cases hn⟩
  ensurePath hns h :=
    ⟨hns.forest.ensurePath h, hns.selects.extends (extends_ensurePath hns.forest h)⟩
  requireAll {m hopss ns} hns := by
    refine ⟨hns.forest.requireAll, hns.selects.of_rel fun path => ?_⟩
    rw [bareAt?_requireAll]
    cases bareAt? path ns with
    | none => exact .none
    | some n => exact .some ⟨rfl, rfl, rfl⟩
  mergeAll hns hbs h :=
    ⟨.mergeAll (fun _ _ _ => trivial) h hns.forest hbs.forest,
      hns.selects.mergeAll hns.forest hbs.forest hbs.selects h⟩
  splitPageAll {m pinned path ns} hns := by
    refine ⟨hns.forest.splitPageAll, hns.selects.of_rel fun place => ?_⟩
    refine rel_imp (paged_splitPageAll pinned place path ns) fun n n' hn => ?_
    obtain ⟨separate, rfl, -⟩ := hn
    exact ⟨rfl, rfl, rfl⟩
  lowerAll hns h := by
    refine ⟨hns.forest.lowerAll (filterClosed_true s).lower h, hns.selects.of_rel fun path => ?_⟩
    refine rel_imp (lowered_lowerAll h path) fun n n' hn => ?_
    obtain ⟨filter, rfl, -⟩ := hn
    exact ⟨rfl, rfl, rfl⟩
  field {m t assoc n attributes} hf htarget hkind hattributes heq _ _ hi := by
    refine ⟨.singleton (.of_forest hf htarget hkind (fun _ _ => trivial) hi.forest),
      .singleton (fun u hu => ?_) hi.selects⟩
    have ht := Schema.model_name (Schema.follow_eq_ok.mp hf).2
    cases (htarget ▸ hu).symm.trans ht
    have hmem := Schema.mem_of_follow hf
    constructor
    · rw [heq]
      split
      · exact addName_subset hattributes (hs t hmem).primaryKey
      · exact hattributes
    · intro hmany _
      rw [heq, if_pos (hkind ▸ hmany)]
      exact mem_addName.mpr (.inr rfl)

/-! ## Nodes and their places -/

theorem Below.rooted (h : Below s m ns parent n) (hns : Forest s Q m ns) : n.Rooted s Q parent := by
  induction h with
  | here hn => exact hns.rooted _ hn
  | under hc hf _ ih => exact ih ((hns.rooted _ hc).includes hf)

theorem Below.exists_nodeAt? (h : Below s m ns parent n) (hns : Forest s Q m ns) :
    ∃ path, nodeAt? path ns = some n := by
  induction h with
  | here hn => exact ⟨[_], hns.child?_of_mem hn⟩
  | @under m t parent ns c n assoc hc hf _ ih =>
    obtain ⟨path, hn⟩ := ih ((hns.rooted c hc).includes hf)
    obtain ⟨name, rest, rfl⟩ : ∃ name rest, path = name :: rest :=
      List.exists_cons_of_ne_nil (by rintro rfl; cases hn)
    exact ⟨c.name :: name :: rest, by rw [nodeAt?_cons_cons, hns.child?_of_mem hc]; exact hn⟩

theorem exists_below (h : nodeAt? path ns = some n) (hns : Forest s Q m ns) :
    ∃ parent, Below s m ns parent n := by
  induction path generalizing m ns with
  | nil => cases h
  | cons name rest ih =>
    cases rest with
    | nil => exact ⟨m, .here (mem_of_child? h)⟩
    | cons next rest =>
      rw [nodeAt?_cons_cons] at h
      obtain ⟨c, hc, h⟩ := Option.bind_eq_some_iff.mp h
      have hroot := hns.rooted_of_child? hc
      obtain ⟨assoc, t, hf⟩ := hroot.exists_follow
      obtain ⟨parent, hn⟩ := ih h (hroot.includes hf)
      exact ⟨parent, .under (mem_of_child? hc) hf hn⟩

theorem Tidy.conforming (h : Tidy s m ns) : Conforming s m ns := by
  refine ⟨h.forest.names, fun parent n hn => ?_⟩
  have hroot := hn.rooted h.forest
  obtain ⟨path, hpath⟩ := hn.exists_nodeAt? h.forest
  obtain ⟨assoc, t, hf⟩ := hroot.exists_follow
  obtain ⟨hassoc, ht⟩ := Schema.follow_eq_ok.mp hf
  have htarget : n.target = assoc.target := (hroot.target hf).trans (Schema.name_of_model ht)
  have hbare : bareAt? path ns = some n.bare := congrArg (Option.map bare) hpath
  have hmodel : s.model n.bare.target = .ok t := htarget ▸ ht
  obtain ⟨hattributes, hkey⟩ := h.selects path _ hbare t hmodel
  exact ⟨assoc, t, hassoc, ht, htarget, hroot.kind hf, hattributes, hkey, (hroot.includes hf).names⟩

theorem rooted_of_conforming (h : ∀ parent c, Below s m [n] parent c →
    ∃ assoc t, c.Conforms s parent assoc t) : n.Rooted s (fun _ _ => True) m := by
  induction n generalizing m with
  | node n ih =>
    obtain ⟨assoc, t, hassoc, ht, htarget, hkind, -, -, hnames⟩ :=
      h m n (.here (List.mem_singleton_self n))
    have hf : s.follow m n.name = .ok (assoc, t) := Schema.follow_eq_ok.mpr ⟨hassoc, ht⟩
    refine .node hf (htarget.trans (Schema.name_of_model ht).symm) hkind (fun _ _ => trivial)
      hnames fun c hc => ih c hc fun parent d hd => ?_
    refine h parent d (.under (List.mem_singleton_self n) hf ?_)
    cases hd with
    | here hmem => exact .here (List.mem_singleton.mp hmem ▸ hc)
    | under hmem hf' hd => exact .under (List.mem_singleton.mp hmem ▸ hc) hf' hd

theorem Conforming.tidy (h : Conforming s m ns) : Tidy s m ns := by
  have hforest : Forest s (fun _ _ => True) m ns := by
    refine ⟨h.names, fun n hn => rooted_of_conforming fun parent c hc => ?_⟩
    refine h.below parent c ?_
    cases hc with
    | here hmem => exact .here (List.mem_singleton.mp hmem ▸ hn)
    | under hmem hf hd => exact .under (List.mem_singleton.mp hmem ▸ hn) hf hd
  refine ⟨hforest, fun path b hb t ht => ?_⟩
  obtain ⟨n, hn, rfl⟩ := Option.map_eq_some_iff.mp hb
  obtain ⟨parent, hbelow⟩ := exists_below hn hforest
  obtain ⟨assoc, u, -, hu, htarget, -, hattributes, hkey, -⟩ := h.below parent n hbelow
  have ht : s.model n.target = .ok t := ht
  cases (htarget ▸ ht).symm.trans hu
  exact ⟨hattributes, hkey⟩

/-- A tree conforms to the schema exactly if it is tidy. -/
theorem conforming_iff : Conforming s m ns ↔ Tidy s m ns := ⟨Conforming.tidy, Tidy.conforming⟩

end Include

/-! ## Every plan -/

variable {s : Schema}

/-- In a schema that was built, the include tree of every plan conforms to the schema: of the plan
of a selection with any filter and order, of a plan with arguments applied to such a selection, of
the plans of queries and change events, and of all merges. -/
theorem conforming_of_build {c : Config} (hs : Schema.build c = .ok s) :
    (∀ info model selections filter orderPaths p,
      Include.plan s info model selections filter orderPaths = .ok p →
      ∃ m, s.model p.model = .ok m ∧ Include.Conforming s m p.includes) ∧
    (∀ selection args m p, s.model selection.model = .ok m →
      Include.Conforming s m selection.includes → Query.applyArguments s selection args = .ok p →
      p.HasTree s (Include.Conforming s) m) ∧
    (∀ a b p m n, a.HasTree s (Include.Conforming s) m → b.HasTree s (Include.Conforming s) n →
      Plan.merge a b = .ok p → p.HasTree s (Include.Conforming s) m) ∧
    ∀ p, Plan.Planned s p → ∃ m, p.HasTree s (Include.Conforming s) m := by
  have hs := Schema.sound_of_build hs
  have hkept := Include.kept_tidy hs
  have hconforming : Include.Conforming s = Include.Tidy s :=
    funext fun m => funext fun ns => propext Include.conforming_iff
  rw [hconforming]
  refine ⟨fun _ _ _ _ _ _ h => hkept.plan hs h, fun _ _ _ _ hm hi h => ?_,
    fun _ _ _ _ _ ha hb h => hkept.merge h ha hb, fun _ h => hkept.planned hs h⟩
  exact hkept.applyArguments h hm hi

theorem authorPlan_conforming : ∃ m n assoc t, librarySchema.model "Author" = .ok m ∧
    authorPlan.includes = [n] ∧ Include.Conforming librarySchema m authorPlan.includes ∧
    n.Conforms librarySchema m assoc t ∧ t.primaryKey ∈ n.attributes := by
  obtain ⟨m, hmodel, hi⟩ :=
    (conforming_of_build build_library).2.2.2 authorPlan (.rootList rootList_authors)
  obtain ⟨n, hn⟩ : ∃ n, authorPlan.includes = [n] ∧ n.kind.isMany = true ∧ n.attributes ≠ [] :=
    ⟨_, rfl, rfl, List.cons_ne_nil _ _⟩
  obtain ⟨assoc, t, hc⟩ := hi.below m n (.here (hn.1 ▸ List.mem_singleton_self n))
  exact ⟨m, n, assoc, t, hmodel, hn.1, hi, hc, hc.key hn.2.1 hn.2.2⟩

end RelQuery

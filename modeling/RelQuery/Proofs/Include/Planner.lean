import RelQuery.Include.Planner
import RelQuery.Plan.Merge
import RelQuery.Proofs.Include.Writable
import RelQuery.Proofs.Schema.Sound

/-!
# The planner adds only what can be written

Paths, filters, merges and the levels of a selection set make include trees out of ones that can be
written. Each keeps them so; the schema must be sound, because a level selects keys without being
asked.
-/

namespace RelQuery

theorem mem_addName {names : List String} {name x : String} :
    x ∈ addName names name ↔ x ∈ names ∨ x = name := by
  unfold addName
  split
  · rename_i h
    exact ⟨.inl, fun hx => hx.elim id fun hx => hx ▸ List.contains_iff_mem.mp h⟩
  · simp

theorem mem_foldl_addName {names more : List String} {x : String} :
    x ∈ more.foldl addName names ↔ x ∈ names ∨ x ∈ more := by
  induction more generalizing names with
  | nil => simp
  | cons name more ih => rw [List.foldl_cons, ih, mem_addName, List.mem_cons, or_assoc]

theorem addName_subset {names ns : List String} {name : String} (h : names ⊆ ns)
    (hn : name ∈ ns) : addName names name ⊆ ns := by
  unfold addName
  split
  · exact h
  · exact List.append_subset.mpr ⟨h, by simpa using hn⟩

theorem foldl_addName_subset {names more ns : List String} (h : names ⊆ ns) (hm : more ⊆ ns) :
    more.foldl addName names ⊆ ns := by
  induction more generalizing names with
  | nil => exact h
  | cons name more ih =>
    rw [List.cons_subset] at hm
    exact ih (addName_subset h hm.1) hm.2

namespace Include

variable {s : Schema} {parent m t : Model} {assoc : Association} {a b n n' : Include}
  {ns ns' bs : List Include} {hop table : String} {hops : List String}

/-! ## Paths -/

theorem Writable.hopNode (h : s.follow m hop = .ok (assoc, t)) :
    (hopNode assoc t).Writable s m := by
  rw [← Schema.name_of_follow h] at h
  exact .node h (List.nil_subset _) nofun nofun

theorem Writable.ensurePath {required : Bool} (h : ensurePath s required hops m ns = .ok ns')
    (hns : ∀ n ∈ ns, n.Writable s m) : ∀ n ∈ ns', n.Writable s m := by
  induction hops generalizing m ns ns' with
  | nil =>
    cases h
    exact hns
  | cons hop hops ih =>
    obtain ⟨assoc, t, hf, h⟩ := ensurePath_cons_eq_ok h
    have hext : ∀ n : Include, n.name = hop → n.Writable s m → ∀ n',
        extendNode s required hops assoc t n = .ok n' → n'.Writable s m := by
      intro n hname hn n' h
      obtain ⟨-, includes, hi, rfl⟩ := extendNode_eq_ok h
      have hf : s.follow m n.name = .ok (assoc, t) := hname ▸ hf
      exact .node hf (hn.attributes hf) (hn.filter hf) (ih hi (hn.includes hf))
    refine forall_upsert h hns (fun n hmem hj => ?_) ?_
    · have hname := (sameJoin_iff.mp hj).2.symm.trans (Schema.name_of_follow hf)
      exact hext n hname (hns n hmem)
    · exact hext _ (Schema.name_of_follow hf) (.hopNode hf)

theorem Writable.attachFilter {f : Filter} (h : attachFilter s m f ns = .ok ns')
    (hns : ∀ n ∈ ns, n.Writable s m) : ∀ n ∈ ns', n.Writable s m :=
  attachFilter_preserves (P := fun ns => ∀ n ∈ ns, n.Writable s m)
    (fun _ _ _ _ hns h => .ensurePath h hns) h hns

theorem Writable.requireHops (hns : ∀ n ∈ ns, n.Writable s m) :
    ∀ n ∈ requireHops hops ns, n.Writable s m := by
  induction hops generalizing m ns with
  | nil => exact hns
  | cons hop hops ih =>
    refine forall_modifyFirst hns fun n hn => ?_
    obtain ⟨hf, ha, hfilter, hi⟩ := hn
    exact .node hf ha hfilter (ih hi)

/-! ## Merges -/

theorem Writable.merge (h : merge a b = .ok n) (hname : a.name = b.name)
    (ha : a.Writable s m) (hb : b.Writable s m) : n.Writable s m := by
  induction b generalizing m a n with
  | node b ih =>
    obtain ⟨includes, limit, offset, hi, -, -, rfl⟩ := merge_eq_ok h
    obtain ⟨hf, hattrs, hfilter, hincludes⟩ := ha
    have hf' := hname ▸ hf
    refine .node hf (foldl_addName_subset hattrs (hb.attributes hf'))
      (fun f h => .merge hfilter (hb.filter hf') h) ?_
    exact forall_mergeAll (fun c hc _ _ h hname ha hb => ih c hc h hname ha hb) hi hincludes
      (hb.includes hf')

theorem Writable.mergeAll (h : mergeAll ns bs = .ok ns') (hns : ∀ n ∈ ns, n.Writable s m)
    (hbs : ∀ b ∈ bs, b.Writable s m) : ∀ n ∈ ns', n.Writable s m :=
  forall_mergeAll (fun _ _ _ _ h hname ha hb => .merge h hname ha hb) h hns hbs

/-! ## Pages and lowering -/

theorem Writable.splitPage {pinned : List (List String)} {path : List String}
    (h : n.Writable s m) : (Plan.splitPage pinned path n).Writable s m := by
  induction h generalizing path with
  | @node parent m assoc n hf ha hfilter hi ih =>
    rcases splitPage_eq pinned path n with heq | ⟨-, heq⟩
    · rw [heq]
      exact .node hf ha hfilter hi
    · rw [heq]
      refine .node hf ha hfilter fun c hc => ?_
      rw [splitPageAll_eq_map] at hc
      obtain ⟨c, hc', rfl⟩ := List.mem_map.mp hc
      exact ih c hc'

theorem Writable.lower (h : lower s m table n = .ok n') (hn : n.Writable s m) :
    n'.Writable s m := by
  induction hn generalizing table n' with
  | @node parent m assoc n hf ha hfilter hi ih =>
    obtain ⟨assoc', m', filter, includes, hf', hlower, hi', rfl⟩ := lower_eq_ok h
    cases hf.symm.trans hf'
    refine .node hf ha (fun g hg => ?_) fun c hc => ?_
    · obtain ⟨f, hfn, hg⟩ := exists_left_of_rel hlower hg
      exact (hfilter f hfn).lower hg
    · rw [lowerAll_eq_mapM] at hi'
      obtain ⟨c', hc', h⟩ := mem_of_mapM hi' hc
      exact ih c' hc' h

/-! ## Levels -/

/-- What a level needs of a model can be written. -/
structure Level.Writable (s : Schema) (m : Model) (level : Level) : Prop where
  attributes : level.attributes ⊆ m.attributeNames
  includes : ∀ n ∈ level.includes, n.Writable s m

variable {info : ExecutionInfo} {level level' : Level} {field : Field}
  {planTarget : Model → List Field → Except PlanError Level}

theorem Writable.applyArguments {args : Arguments} (h : applyArguments s t n args = .ok n')
    (ht : s.model t.name = .ok t) (hf : s.follow m n.name = .ok (assoc, t))
    (hn : n.Writable s m) : n'.Writable s m := by
  unfold Include.applyArguments at h
  split at h
  · obtain ⟨n₁, ⟨⟩, h⟩ := bind_eq_ok.mp h
    cases h
    exact .node hf (hn.attributes hf) (hn.filter hf) (hn.includes hf)
  · obtain ⟨f, hcompile, h⟩ := bind_eq_ok.mp h
    obtain ⟨includes, hi, h⟩ := bind_eq_ok.mp h
    obtain ⟨n₁, ⟨⟩, h⟩ := bind_eq_ok.mp h
    cases h
    refine .node hf (hn.attributes hf) (fun g hg => ?_) (.attachFilter hi (hn.includes hf))
    cases Filter.proper?_eq_some hg
    exact Filter.writable_of_compile ht hcompile

theorem Writable.ofField (hs : s.Sound) (h : ofField s info planTarget assoc field = .ok n)
    (hassoc : m.association? assoc.name = some assoc)
    (H : ∀ {t fields level}, t ∈ s.models → planTarget t fields = .ok level → level.Writable s t) :
    n.Writable s m := by
  obtain ⟨t, ht, h⟩ := bind_eq_ok.mp h
  obtain ⟨fields, -, h⟩ := bind_eq_ok.mp h
  obtain ⟨level, hlevel, h⟩ := bind_eq_ok.mp h
  obtain ⟨args, -, h⟩ := bind_eq_ok.mp h
  have hmem := Schema.mem_of_model ht
  have hw := H hmem hlevel
  have hf : s.follow m assoc.name = .ok (assoc, t) := Schema.follow_eq_ok.mpr ⟨hassoc, ht⟩
  have hattrs : (if assoc.kind.isMany then addName level.attributes t.primaryKey
      else level.attributes) ⊆ t.attributeNames := by
    split
    · exact addName_subset hw.attributes (hs t hmem).primaryKey
    · exact hw.attributes
  cases args with
  | none =>
    cases h
    exact .node hf hattrs nofun hw.includes
  | some args =>
    exact .applyArguments h (Schema.model_name ht) hf (.node hf hattrs nofun hw.includes)

/-- A level keeps what can be written when an association is taken into it. -/
theorem Level.Writable.addAssociation (hs : s.Sound) (hm : m ∈ s.models)
    (h : level.addAssociation s info planTarget m assoc field = .ok level')
    (hassoc : m.association? assoc.name = some assoc)
    (H : ∀ {t fields level}, t ∈ s.models → planTarget t fields = .ok level → level.Writable s t)
    (hl : level.Writable s m) : level'.Writable s m := by
  have hattrs := addName_subset hl.attributes
    ((hs m hm).parentKey assoc (Model.mem_of_association? hassoc))
  unfold Level.addAssociation at h
  dsimp only at h
  split at h
  · cases h
    exact ⟨hattrs, hl.includes⟩
  · split at h
    · cases h
      exact ⟨hattrs, hl.includes⟩
    · obtain ⟨n, hn, h⟩ := bind_eq_ok.mp h
      obtain ⟨includes, hi, h⟩ := bind_eq_ok.mp h
      cases h
      refine ⟨hattrs, .mergeAll hi hl.includes ?_⟩
      exact List.forall_mem_singleton.mpr (.ofField hs hn hassoc H)

theorem Level.Writable.addField (hs : s.Sound) (hm : m ∈ s.models)
    (h : level.addField s info planTarget m field = .ok level')
    (H : ∀ {t fields level}, t ∈ s.models → planTarget t fields = .ok level → level.Writable s t)
    (hl : level.Writable s m) : level'.Writable s m := by
  unfold Level.addField at h
  split at h
  · rename_i hattr
    cases h
    exact ⟨addName_subset hl.attributes (Model.attribute?_isSome.mp hattr), hl.includes⟩
  · split at h
    · rename_i hassoc
      exact .addAssociation hs hm h (Model.association?_of_field hassoc) H hl
    · cases h
      exact hl

/-- Every level of a selection set can be written. -/
theorem Level.Writable.planLevel (hs : s.Sound) {depth : Nat} {fields : List Field}
    (hm : m ∈ s.models) (h : planLevel s info depth m fields = .ok level) :
    level.Writable s m := by
  induction depth generalizing m fields level with
  | zero => cases h
  | succ depth ih =>
    exact foldlM_preserves (P := Level.Writable s m)
      (fun _ _ _ _ hl h => .addField hs hm h ih hl) ⟨List.nil_subset _, List.forall_mem_nil _⟩ h

end Include

/-! ## Selections -/

/-- What a selection needs of its model can be written. -/
structure PartialPlan.Writable (s : Schema) (m : Model) (p : PartialPlan) : Prop where
  model : s.model p.model = .ok m
  attributes : p.attributes ⊆ m.attributeNames
  includes : ∀ n ∈ p.includes, n.Writable s m

/-- The plan of a selection on a model that exists can be written. -/
theorem PartialPlan.writable_of_plan {s : Schema} {m : Model} {info : ExecutionInfo}
    {model : String} {selections : List Selection} {p : PartialPlan} (hs : s.Sound)
    (hm : s.model model = .ok m) (h : Include.plan s info model selections none [] = .ok p) :
    p.Writable s m := by
  obtain ⟨n, hn, h⟩ := bind_eq_ok.mp h
  cases hm.symm.trans hn
  obtain ⟨fields, -, h⟩ := bind_eq_ok.mp h
  obtain ⟨level, hlevel, h⟩ := bind_eq_ok.mp h
  cases h
  have hw := Include.Level.Writable.planLevel hs (Schema.mem_of_model hm) hlevel
  exact ⟨Schema.model_name hm, hw.attributes, hw.includes⟩

end RelQuery

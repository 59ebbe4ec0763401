import RelQuery.Proofs.Include.Nodes

/-!
# How include trees are put together

Paths, merges, pages and lowering make trees from trees, and a field adds a node to them. A property
that all of these keep holds of every tree that a selection is planned with.
-/

namespace RelQuery

/-! ## Numbers of rows -/

/-- A number of rows, if there is one, is a `bigint`. -/
def Bigint.Fits (k? : Option Nat) : Prop := ∀ k, k? = some k → k < Bigint.bound

theorem Bigint.fits_none : Fits none := nofun

namespace Arguments

/-- The page of a query has `bigint` numbers. -/
structure PageFits (args : Arguments) : Prop where
  limit : Bigint.Fits args.limit
  offset : Bigint.Fits args.offset

variable {args args' : Arguments} {entry : String × Document} {key : String} {value : Document}
  {k? : Option Nat}

theorem fits_of_count (h : count key value = .ok k?) : Bigint.Fits k? := by
  unfold count at h
  split at h
  · cases h
    exact Bigint.fits_none
  · split at h
    · split at h
      · cases h
        intro k hk
        cases hk
        assumption
      · cases h
    · cases h
  · cases h

/-- Only two keys set a number of rows, and both read it as a count. -/
theorem PageFits.set (h : set args entry = .ok args') (hargs : args.PageFits) :
    args'.PageFits := by
  obtain ⟨key, value⟩ := entry
  unfold Arguments.set at h
  dsimp only at h
  split at h
  case h_5 =>
    obtain ⟨limit, hlimit, h⟩ := bind_eq_ok.mp h
    cases h
    exact ⟨fits_of_count hlimit, hargs.offset⟩
  case h_6 =>
    obtain ⟨offset, hoffset, h⟩ := bind_eq_ok.mp h
    cases h
    exact ⟨hargs.limit, fits_of_count hoffset⟩
  case h_1 =>
    cases h
    exact ⟨hargs.limit, hargs.offset⟩
  case h_9 => cases h
  all_goals
    obtain ⟨_, -, h⟩ := bind_eq_ok.mp h
    cases h
    exact ⟨hargs.limit, hargs.offset⟩

theorem pageFits_of_parse (h : parse value = .ok args) : args.PageFits := by
  unfold parse at h
  split at h
  · obtain ⟨args', hargs, h⟩ := bind_eq_ok.mp h
    have hfits : args'.PageFits := foldlM_preserves (P := PageFits)
      (fun _ _ _ _ hargs h => .set h hargs) ⟨Bigint.fits_none, Bigint.fits_none⟩ hargs
    split at h
    · cases h
    · cases h
      exact hfits
  · cases h

theorem pageFits_of_ofField {field : Field} {info : ExecutionInfo}
    (h : ofField field info = .ok (some args)) : args.PageFits := by
  unfold ofField at h
  split at h
  · cases h
  · cases h
  · obtain ⟨args', hargs, h⟩ := map_eq_ok.mp h
    cases h
    exact pageFits_of_parse hargs

end Arguments

namespace Include

/-- A property of the trees below a model that every way to put them together keeps. -/
structure Kept (s : Schema) (P : Model → List Include → Prop) : Prop where
  nil : ∀ {m}, P m []
  ensurePath : ∀ {m required hops ns ns'}, P m ns →
    Include.ensurePath s required hops m ns = .ok ns' → P m ns'
  requireAll : ∀ {m hopss ns}, P m ns → P m (Include.requireAll hopss ns)
  mergeAll : ∀ {m ns bs ns'}, P m ns → P m bs → Include.mergeAll ns bs = .ok ns' → P m ns'
  splitPageAll : ∀ {m pinned path ns}, P m ns → P m (Plan.splitPageAll pinned path ns)
  lowerAll : ∀ {m table ns ns'}, P m ns → Include.lowerAll s m table ns = .ok ns' → P m ns'
  /-- A node for a field: it selects what its level needs of the target, to-many ones the key
  besides. The numbers of its page are `bigint`s; its filter and how it is loaded are left open. -/
  field : ∀ {m t assoc n attributes}, s.follow m n.name = .ok (assoc, t) → n.target = t.name →
    n.kind = assoc.kind → attributes ⊆ t.attributeNames →
    n.attributes = (if assoc.kind.isMany then addName attributes t.primaryKey else attributes) →
    Bigint.Fits n.limit → Bigint.Fits n.offset → P t n.includes → P m [n]

namespace Kept

variable {s : Schema} {P : Model → List Include → Prop} {m t : Model} {assoc : Association}
  {n : Include} {ns ns' : List Include} {info : ExecutionInfo} {level level' : Level}
  {field : Field} {planTarget : Model → List Field → Except PlanError Level}
  (H : Kept s P)
include H

theorem attachFilter {f : Filter} (hns : P m ns) (h : attachFilter s m f ns = .ok ns') :
    P m ns' :=
  attachFilter_preserves (P := P m) (fun _ _ _ _ hns h => H.ensurePath hns h) h hns

/-! ## Levels -/

theorem ofField (h : ofField s info planTarget assoc field = .ok n)
    (hassoc : m.association? assoc.name = some assoc)
    (Hlevel : ∀ {t fields level}, t ∈ s.models → planTarget t fields = .ok level →
      level.attributes ⊆ t.attributeNames ∧ P t level.includes) : P m [n] := by
  obtain ⟨t, ht, h⟩ := bind_eq_ok.mp h
  obtain ⟨fields, -, h⟩ := bind_eq_ok.mp h
  obtain ⟨level, hlevel, h⟩ := bind_eq_ok.mp h
  obtain ⟨args, hargs, h⟩ := bind_eq_ok.mp h
  obtain ⟨hattributes, hincludes⟩ := Hlevel (Schema.mem_of_model ht) hlevel
  have hf : s.follow m assoc.name = .ok (assoc, t) := Schema.follow_eq_ok.mpr ⟨hassoc, ht⟩
  cases args with
  | none =>
    cases h
    exact H.field hf rfl rfl hattributes rfl Bigint.fits_none Bigint.fits_none hincludes
  | some args =>
    obtain ⟨hlimit, hoffset⟩ := Arguments.pageFits_of_ofField hargs
    dsimp only [applyArguments] at h
    split at h
    · obtain ⟨n₁, ⟨⟩, h⟩ := bind_eq_ok.mp h
      cases h
      exact H.field hf rfl rfl hattributes rfl hlimit hoffset hincludes
    · obtain ⟨f, -, h⟩ := bind_eq_ok.mp h
      obtain ⟨includes, hi, h⟩ := bind_eq_ok.mp h
      obtain ⟨n₁, ⟨⟩, h⟩ := bind_eq_ok.mp h
      cases h
      exact H.field hf rfl rfl hattributes rfl hlimit hoffset (H.attachFilter hincludes hi)

theorem addAssociation (h : level.addAssociation s info planTarget m assoc field = .ok level')
    (hassoc : m.association? assoc.name = some assoc)
    (Hlevel : ∀ {t fields level}, t ∈ s.models → planTarget t fields = .ok level →
      level.attributes ⊆ t.attributeNames ∧ P t level.includes)
    (hl : P m level.includes) : P m level'.includes := by
  unfold Level.addAssociation at h
  dsimp only at h
  split at h
  · cases h
    exact hl
  · split at h
    · cases h
      exact hl
    · obtain ⟨n, hn, h⟩ := bind_eq_ok.mp h
      obtain ⟨includes, hi, h⟩ := bind_eq_ok.mp h
      cases h
      exact H.mergeAll hl (H.ofField hn hassoc Hlevel) hi

theorem planLevel (hs : s.Sound) {depth : Nat} {fields : List Field} (hm : m ∈ s.models)
    (h : planLevel s info depth m fields = .ok level) : P m level.includes := by
  induction depth generalizing m fields level with
  | zero => cases h
  | succ depth ih =>
    refine foldlM_preserves (P := fun level => P m level.includes)
      (fun level field _ level' hl h => ?_) H.nil h
    unfold Level.addField at h
    split at h
    · cases h
      exact hl
    · split at h
      · rename_i hassoc
        refine H.addAssociation h (Model.association?_of_field hassoc) (fun ht hlevel => ?_) hl
        exact ⟨(Level.Writable.planLevel hs ht hlevel).attributes, ih ht hlevel⟩
      · cases h
        exact hl

/-! ## Selections -/

/-- The plan of a selection, with all that a filter and some orders need. -/
theorem plan (hs : s.Sound) {model : String} {selections : List Selection}
    {filter : Option Filter} {orderPaths : List (List String)} {p : PartialPlan}
    (h : plan s info model selections filter orderPaths = .ok p) :
    ∃ m, s.model p.model = .ok m ∧ P m p.includes := by
  obtain ⟨m, hm, h⟩ := bind_eq_ok.mp h
  obtain ⟨fields, -, h⟩ := bind_eq_ok.mp h
  obtain ⟨level, hlevel, h⟩ := bind_eq_ok.mp h
  have hlevel : P m level.includes := H.planLevel hs (Schema.mem_of_model hm) hlevel
  have hordered : ∀ {filtered includes}, P m filtered →
      orderPaths.foldlM (fun ns hops => Include.ensurePath s false hops m ns) filtered =
        .ok includes → P m includes :=
    fun hns h => foldlM_preserves (P := P m) (fun _ _ _ _ hns h => H.ensurePath hns h) hns h
  dsimp only at h
  split at h
  · obtain ⟨filtered, hfiltered, h⟩ := bind_eq_ok.mp h
    obtain ⟨includes, hi, h⟩ := bind_eq_ok.mp h
    cases h
    exact ⟨m, Schema.model_name hm, hordered (H.attachFilter hlevel hfiltered) hi⟩
  · obtain ⟨filtered, ⟨⟩, h⟩ := bind_eq_ok.mp h
    obtain ⟨includes, hi, h⟩ := bind_eq_ok.mp h
    cases h
    exact ⟨m, Schema.model_name hm, hordered hlevel hi⟩

end Kept

end Include

end RelQuery

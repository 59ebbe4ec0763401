import Mathlib.Data.List.Nodup
import RelQuery.Proofs.Schema.Lookup
import RelQuery.Schema.Build

/-!
# Accepted schemas

A configuration is accepted only if every model has a primary key and every association correlates
on an attribute of its source. These are the attributes that plans select without being asked.
-/

namespace RelQuery

/-- The keys of a model are attributes of it. -/
structure Model.Sound (m : Model) : Prop where
  primaryKey : m.primaryKey ∈ m.attributeNames
  parentKey : ∀ a ∈ m.associations, a.parentKey m ∈ m.attributeNames

def Schema.Sound (s : Schema) : Prop := ∀ m ∈ s.models, m.Sound

namespace Model

variable {m : Model}

theorem primaryKeys_subset : m.primaryKeys ⊆ m.attributeNames := by
  intro name h
  obtain ⟨a, ha, rfl⟩ := List.mem_map.mp h
  exact List.mem_map.mpr ⟨a, (List.mem_filter.mp ha).1, rfl⟩

theorem exists_primaryKey (h : m.attributes.any (·.primaryKey) = true) :
    ∃ a ∈ m.attributes, a.primaryKey = true ∧ a.name = m.primaryKey := by
  obtain ⟨a, ha, hp⟩ := List.any_eq_true.mp h
  have hmem : a.name ∈ m.primaryKeys := List.mem_map.mpr ⟨a, List.mem_filter.mpr ⟨ha, hp⟩, rfl⟩
  have hkey : m.primaryKey ∈ m.primaryKeys := by
    unfold primaryKey
    cases hkeys : m.primaryKeys with
    | nil =>
      rw [hkeys] at hmem
      cases hmem
    | cons key keys => exact List.mem_cons_self
  obtain ⟨a, ha, hname⟩ := List.mem_map.mp hkey
  exact ⟨a, (List.mem_filter.mp ha).1, (List.mem_filter.mp ha).2, hname⟩

theorem primaryKey_mem (h : m.attributes.any (·.primaryKey) = true) :
    m.primaryKey ∈ m.attributeNames := by
  obtain ⟨a, ha, -, hname⟩ := exists_primaryKey h
  exact List.mem_map.mpr ⟨a, ha, hname⟩

theorem association?_name {a : Association} (hnames : (m.associations.map (·.name)).Nodup)
    (ha : a ∈ m.associations) : m.association? a.name = some a := by
  have hsome : (m.association? a.name).isSome :=
    List.find?_isSome.mpr ⟨a, ha, beq_iff_eq.mpr rfl⟩
  obtain ⟨found, hfound⟩ := Option.isSome_iff_exists.mp hsome
  have hsame : found = a := List.inj_on_of_nodup_map hnames (mem_of_association? hfound) ha
    (name_of_association? hfound)
  rw [hfound, hsame]

end Model

namespace Schema

variable {c : Config} {models : List ModelConfig} {m : ModelConfig} {a : AssociationConfig}
  {name : String} {seen : List String}

theorem requireAttribute_eq_ok {u : Unit} :
    requireAttribute m name = .ok u ↔ m.hasAttribute name = true := by
  unfold requireAttribute
  split
  · simp [*]
  · simp [*]

theorem mem_attributeNames_resolve (h : m.hasAttribute name = true) :
    name ∈ m.resolve.attributeNames := by
  obtain ⟨a, ha, hname⟩ := List.any_eq_true.mp h
  refine List.mem_map.mpr ⟨a.resolve, List.mem_map.mpr ⟨a, ha, rfl⟩, ?_⟩
  exact beq_iff_eq.mp hname

theorem any_primaryKey_resolve (h : m.attributes.any (·.primaryKey) = true) :
    m.resolve.attributes.any (·.primaryKey) = true := by
  obtain ⟨a, ha, hp⟩ := List.any_eq_true.mp h
  exact List.any_eq_true.mpr ⟨a.resolve, List.mem_map.mpr ⟨a, ha, rfl⟩, hp⟩

theorem primaryKey_resolve (h : m.attributes.any (·.primaryKey) = true) :
    m.resolve.primaryKey ∈ m.resolve.attributeNames :=
  Model.primaryKey_mem (any_primaryKey_resolve h)

theorem targetKey_resolve (hp : m.attributes.any (·.primaryKey) = true)
    (h : ∀ key, a.targetKey = some key → m.hasAttribute key = true) :
    a.targetKey.getD m.resolve.primaryKey ∈ m.resolve.attributeNames := by
  cases hk : a.targetKey with
  | none => exact primaryKey_resolve hp
  | some key => exact mem_attributeNames_resolve (h key hk)

/-- The key on the source of a checked association is an attribute of the source. -/
theorem parentKey_resolve {target : ModelConfig} {u : Unit}
    (hp : m.attributes.any (·.primaryKey) = true) (h : checkKeys m target a = .ok u) :
    (a.resolve m.name).parentKey m.resolve ∈ m.resolve.attributeNames := by
  unfold checkKeys at h
  unfold Association.parentKey AssociationConfig.resolve
  cases hkind : a.kind with
  | belongsTo =>
    rw [hkind] at h
    obtain ⟨_, hf, -⟩ := bind_eq_ok.mp h
    exact mem_attributeNames_resolve (requireAttribute_eq_ok.mp hf)
  | hasOne | hasMany =>
    rw [hkind] at h
    obtain ⟨_, -, h⟩ := bind_eq_ok.mp h
    refine targetKey_resolve hp fun key hk => ?_
    rw [hk] at h
    exact requireAttribute_eq_ok.mp h
  | belongsToMany =>
    rw [hkind] at h
    dsimp only at h
    split at h
    · cases h
    · refine targetKey_resolve hp fun key hk => ?_
      rw [hk] at h
      exact requireAttribute_eq_ok.mp h

theorem checkKeys_of_checkAssociations {as : List AssociationConfig} {u : Unit}
    (h : checkAssociations models m seen as = .ok u) (ha : a ∈ as) :
    ∃ target, models.find? (·.name == a.target) = some target ∧ checkKeys m target a = .ok () := by
  induction as generalizing seen with
  | nil => cases ha
  | cons b as ih =>
    rw [checkAssociations] at h
    split at h
    · cases h
    · rename_i target htarget
      split at h
      · cases h
      · obtain ⟨_, hb, h⟩ := bind_eq_ok.mp h
        rcases List.mem_cons.mp ha with rfl | ha
        · exact ⟨target, htarget, hb⟩
        · exact ih h ha

theorem primaryKey_of_checkModel {u : Unit} (h : checkModel models m = .ok u) :
    m.attributes.any (·.primaryKey) = true := by
  obtain ⟨seen, -, h⟩ := bind_eq_ok.mp h
  split at h
  · cases h
  · rename_i hp
    simpa using hp

theorem associations_of_checkModel {u : Unit} (h : checkModel models m = .ok u) :
    ∃ seen, checkAssociations models m seen m.associations = .ok () := by
  obtain ⟨seen, -, h⟩ := bind_eq_ok.mp h
  split at h
  · cases h
  · exact ⟨seen, h⟩

theorem sound_of_checkModel {u : Unit} (h : checkModel models m = .ok u) : m.resolve.Sound := by
  have hp := primaryKey_of_checkModel h
  obtain ⟨seen, hassocs⟩ := associations_of_checkModel h
  refine ⟨primaryKey_resolve hp, fun a ha => ?_⟩
  obtain ⟨a', ha', rfl⟩ := List.mem_map.mp ha
  obtain ⟨target, -, ha⟩ := checkKeys_of_checkAssociations hassocs ha'
  exact parentKey_resolve hp ha

/-- The models of an accepted schema are those of its configuration, each of them checked. -/
theorem checked_of_build {s : Schema} (h : build c = .ok s) :
    s.models = c.models.map (·.resolve) ∧ ∀ m ∈ c.models, checkModel c.models m = .ok () := by
  obtain ⟨_, hv, h⟩ := bind_eq_ok.mp h
  obtain ⟨_, -, h⟩ := bind_eq_ok.mp h
  obtain ⟨_, -, hv⟩ := bind_eq_ok.mp hv
  cases h
  exact ⟨rfl, of_forM hv⟩

theorem exists_of_build {s : Schema} (h : build c = .ok s) {m : Model} (hm : m ∈ s.models) :
    ∃ m' ∈ c.models, m = m'.resolve ∧ checkModel c.models m' = .ok () := by
  obtain ⟨hmodels, hcheck⟩ := checked_of_build h
  rw [hmodels] at hm
  obtain ⟨m', hm', rfl⟩ := List.mem_map.mp hm
  exact ⟨m', hm', rfl, hcheck m' hm'⟩

theorem sound_of_build {s : Schema} (h : build c = .ok s) : s.Sound := by
  intro m hm
  obtain ⟨m, -, rfl, hcheck⟩ := exists_of_build h hm
  exact sound_of_checkModel hcheck

/-- An association of an accepted schema is a checked one, and the schema has its target. -/
theorem exists_target_of_build {s : Schema} (h : build c = .ok s) {m : Model} {a : Association}
    (hm : m ∈ s.models) (ha : a ∈ m.associations) :
    ∃ source assoc target, m = source.resolve ∧ a = assoc.resolve source.name ∧
      s.targetOf a = .ok target.resolve ∧ checkKeys source target assoc = .ok () ∧
      target.attributes.any (·.primaryKey) = true := by
  obtain ⟨hmodels, hcheck⟩ := checked_of_build h
  obtain ⟨source, -, rfl, hsource⟩ := exists_of_build h hm
  obtain ⟨assoc, hassoc, rfl⟩ := List.mem_map.mp ha
  obtain ⟨seen, hassocs⟩ := associations_of_checkModel hsource
  obtain ⟨target, htarget, hkeys⟩ := checkKeys_of_checkAssociations hassocs hassoc
  have hresolve : s.model? assoc.target = some target.resolve := by
    rw [model?, hmodels, List.find?_map]
    exact congrArg (Option.map ModelConfig.resolve) htarget
  exact ⟨source, assoc, target, rfl, rfl, model_eq_ok.mpr hresolve, hkeys,
    primaryKey_of_checkModel (hcheck target (List.mem_of_find?_eq_some htarget))⟩

/-! ## Keys on targets -/

/-- The key on the target of a checked association is an attribute of the target. -/
theorem childKey_resolve {target : ModelConfig} {source : String} {u : Unit}
    (hp : target.attributes.any (·.primaryKey) = true) (h : checkKeys m target a = .ok u) :
    (a.resolve source).childKey target.resolve ∈ target.resolve.attributeNames := by
  unfold checkKeys at h
  unfold Association.childKey AssociationConfig.resolve
  cases hkind : a.kind with
  | belongsTo =>
    rw [hkind] at h
    obtain ⟨_, -, h⟩ := bind_eq_ok.mp h
    refine targetKey_resolve hp fun key hk => ?_
    rw [hk] at h
    exact requireAttribute_eq_ok.mp h
  | hasOne | hasMany =>
    rw [hkind] at h
    obtain ⟨_, hf, -⟩ := bind_eq_ok.mp h
    exact mem_attributeNames_resolve (requireAttribute_eq_ok.mp hf)
  | belongsToMany => exact primaryKey_resolve hp

/-- In an accepted schema the key on the target of an association is an attribute of it. -/
theorem childKey_of_build {s : Schema} (h : build c = .ok s) {m t : Model} {a : Association}
    (hm : m ∈ s.models) (ha : a ∈ m.associations) (ht : s.targetOf a = .ok t) :
    a.childKey t ∈ t.attributeNames := by
  obtain ⟨source, assoc, target, rfl, rfl, htarget, hkeys, hp⟩ := exists_target_of_build h hm ha
  cases htarget.symm.trans ht
  exact childKey_resolve hp hkeys

/-- In an accepted schema a many-to-many association has its link table. -/
theorem link_of_build {s : Schema} (h : build c = .ok s) {m : Model} {a : Association}
    (hm : m ∈ s.models) (ha : a ∈ m.associations) (hkind : a.kind = .belongsToMany) :
    ∃ link, a.usedLink? = some link := by
  obtain ⟨source, assoc, target, rfl, rfl, -, hkeys, -⟩ := exists_target_of_build h hm ha
  have hkind : assoc.kind = .belongsToMany := hkind
  rw [checkKeys, hkind] at hkeys
  dsimp only at hkeys
  split at hkeys
  · cases hkeys
  · rename_i hlink
    obtain ⟨link, hlink⟩ := Option.ne_none_iff_exists'.mp (mt Option.isNone_iff_eq_none.mpr hlink)
    refine ⟨link, ?_⟩
    rw [Association.usedLink?, AssociationConfig.resolve, hkind]
    exact hlink

/-! ## Names of members -/

theorem nodup_concat {names : List String} (h : names.Nodup) (hname : names.contains name = false) :
    (names ++ [name]).Nodup := by
  refine List.nodup_append.mpr ⟨h, List.pairwise_singleton _ name, fun a ha b hb hab => ?_⟩
  cases List.mem_singleton.mp hb
  rw [hab, ← List.contains_iff_mem, hname] at ha
  cases ha

theorem checkAttributes_eq_ok {model : String} {as : List AttributeConfig} {all : List String}
    (h : checkAttributes model seen as = .ok all) (hseen : seen.Nodup) :
    all = seen ++ as.map (·.name) ∧ all.Nodup := by
  induction as generalizing seen with
  | nil =>
    cases h
    exact ⟨(List.append_nil _).symm, hseen⟩
  | cons b as ih =>
    rw [checkAttributes] at h
    split at h
    · cases h
    · rename_i hb
      split at h
      · cases h
      · obtain ⟨rfl, hall⟩ := ih h (nodup_concat hseen (Bool.eq_false_iff.mpr hb))
        exact ⟨List.append_assoc _ _ _, hall⟩

theorem nodup_of_checkAssociations {as : List AssociationConfig} {u : Unit}
    (h : checkAssociations models m seen as = .ok u) (hseen : seen.Nodup) :
    (seen ++ as.map (·.name)).Nodup := by
  induction as generalizing seen with
  | nil => rwa [List.map_nil, List.append_nil]
  | cons b as ih =>
    rw [checkAssociations] at h
    split at h
    · cases h
    · split at h
      · cases h
      · rename_i hb
        obtain ⟨_, -, h⟩ := bind_eq_ok.mp h
        have hrest := ih h (nodup_concat hseen (Bool.eq_false_iff.mpr hb))
        rwa [List.append_assoc] at hrest

/-- In an accepted schema no two members of a model have one name. -/
theorem nodup_members_of_build {s : Schema} (h : build c = .ok s) {m : Model} (hm : m ∈ s.models) :
    (m.attributeNames ++ m.associations.map (·.name)).Nodup := by
  obtain ⟨m, -, rfl, hm'⟩ := exists_of_build h hm
  obtain ⟨seen, hattrs, h⟩ := bind_eq_ok.mp hm'
  obtain ⟨rfl, hnodup⟩ := checkAttributes_eq_ok hattrs List.nodup_nil
  split at h
  · cases h
  · have hall := nodup_of_checkAssociations h hnodup
    rw [List.nil_append] at hall
    have hattrs : m.resolve.attributeNames = m.attributes.map (·.name) := List.map_map
    have hassocs : m.resolve.associations.map (·.name) = m.associations.map (·.name) :=
      List.map_map
    rwa [hattrs, hassocs]

theorem nodup_attributes_of_build {s : Schema} (h : build c = .ok s) {m : Model}
    (hm : m ∈ s.models) : m.attributeNames.Nodup :=
  (List.nodup_append.mp (nodup_members_of_build h hm)).1

theorem nodup_associations_of_build {s : Schema} (h : build c = .ok s) {m : Model}
    (hm : m ∈ s.models) : (m.associations.map (·.name)).Nodup :=
  (List.nodup_append.mp (nodup_members_of_build h hm)).2.1

theorem stored_of_checkAttributes {model : String} {as : List AttributeConfig} {all : List String}
    (h : checkAttributes model seen as = .ok all) :
    ∀ a ∈ as, a.primaryKey = true → a.computed = none := by
  induction as generalizing seen with
  | nil => nofun
  | cons b as ih =>
    rw [checkAttributes] at h
    split at h
    · cases h
    · split at h
      · cases h
      · rename_i hb
        refine List.forall_mem_cons.mpr ⟨fun hp => ?_, ih h⟩
        simpa [hp] using hb

/-- In an accepted schema the primary key of a model is an attribute that was declared as such, and
is not computed. -/
theorem exists_primaryKey_of_build {s : Schema} (h : build c = .ok s) {m : Model}
    (hm : m ∈ s.models) : ∃ a : AttributeConfig, m.attribute? m.primaryKey = some a.resolve ∧
      a.primaryKey = true ∧ a.computed = none := by
  have hnodup := nodup_attributes_of_build h hm
  obtain ⟨found, hfound⟩ := Option.isSome_iff_exists.mp
    (Model.attribute?_isSome.mpr (sound_of_build h m hm).primaryKey)
  obtain ⟨m, -, rfl, hm'⟩ := exists_of_build h hm
  obtain ⟨a, ha, hkey, hname⟩ :=
    Model.exists_primaryKey (any_primaryKey_resolve (primaryKey_of_checkModel hm'))
  have hsame : found = a := List.inj_on_of_nodup_map hnodup (List.mem_of_find?_eq_some hfound) ha
    ((Model.name_of_attribute? hfound).trans hname.symm)
  obtain ⟨seen, hattrs, -⟩ := bind_eq_ok.mp hm'
  obtain ⟨a', ha', rfl⟩ := List.mem_map.mp ha
  exact ⟨a', hsame ▸ hfound, hkey, stored_of_checkAttributes hattrs a' ha' hkey⟩

/-- In an accepted schema the primary key of a model is a stored attribute. -/
theorem primaryKey_of_build {s : Schema} (h : build c = .ok s) {m : Model} (hm : m ∈ s.models) :
    m.Stored m.primaryKey := by
  obtain ⟨a, ha, -, hstored⟩ := exists_primaryKey_of_build h hm
  exact ⟨a.resolve, ha, hstored⟩

/-- So every association is followed by its name. -/
theorem follow_of_mem {s : Schema} (h : build c = .ok s) {m t : Model} {assoc : Association}
    (hm : m ∈ s.models) (hassoc : assoc ∈ m.associations) (ht : s.targetOf assoc = .ok t) :
    s.follow m assoc.name = .ok (assoc, t) := by
  have hnames := nodup_associations_of_build h hm
  exact follow_eq_ok.mpr ⟨Model.association?_name hnames hassoc, ht⟩

/-- So an association that can be followed has not the name of an attribute. -/
theorem notMem_attributeNames_of_follow {s : Schema} (h : build c = .ok s) {m t : Model}
    {assoc : Association} {hop : String} (hm : m ∈ s.models)
    (hf : s.follow m hop = .ok (assoc, t)) : hop ∉ m.attributeNames := by
  have hassoc := Model.mem_of_association? (follow_eq_ok.mp hf).1
  have hname := name_of_follow hf
  have hnodup := nodup_members_of_build h hm
  rw [List.nodup_append] at hnodup
  intro hattr
  exact hnodup.2.2 hop hattr hop (hname ▸ List.mem_map_of_mem hassoc) rfl

end Schema

end RelQuery

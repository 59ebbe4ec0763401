import RelQuery.Proofs.Schema.Sound

/-!
# Accepted configurations

A configuration is accepted exactly if it is sound: no name is given twice, every model has a
primary key that is stored, every association has its target and its keys, and no type name belongs
to two models.
-/

namespace RelQuery

/-! ## Sound configurations -/

/-- The keys of an association are attributes of the sides they are said to be on. -/
def AssociationConfig.KeysExist (source target : ModelConfig) (a : AssociationConfig) : Prop :=
  match a.kind with
  | .belongsTo => a.foreignKey ∈ source.attributes.map (·.name) ∧
      ∀ key, a.targetKey = some key → key ∈ target.attributes.map (·.name)
  | .hasOne | .hasMany => a.foreignKey ∈ target.attributes.map (·.name) ∧
      ∀ key, a.targetKey = some key → key ∈ source.attributes.map (·.name)
  | .belongsToMany => a.link.isSome = true ∧
      ∀ key, a.targetKey = some key → key ∈ source.attributes.map (·.name)

/-- A model that stands well among the models of its configuration. -/
structure ModelConfig.Sound (models : List ModelConfig) (m : ModelConfig) : Prop where
  members : (m.attributes.map (·.name) ++ m.associations.map (·.name)).Nodup
  primaryKey : ∃ a ∈ m.attributes, a.primaryKey = true
  stored : ∀ a ∈ m.attributes, a.primaryKey = true → a.computed = none
  keys : ∀ a ∈ m.associations, ∃ target ∈ models, target.name = a.target ∧ a.KeysExist m target

/-- The type of one row of a model, and that of many. -/
def Options.typeNames (o : Options) (model : String) : List String :=
  [o.typeName model, o.manyTypeName model]

structure Config.Sound (c : Config) : Prop where
  names : (c.models.map (·.name)).Nodup
  models : ∀ m ∈ c.models, m.Sound c.models
  types : ∀ m ∈ c.models, ∀ n ∈ c.models, m.name ≠ n.name →
    ∀ type ∈ c.options.typeNames m.name, type ∉ c.options.typeNames n.name

namespace Schema

variable {c : Config} {models : List ModelConfig} {m target : ModelConfig} {a : AssociationConfig}
  {seen : List String} {u : Unit}

/-! ## Names -/

theorem contains_eq_false_of_nodup {name : String} {names : List String}
    (h : (seen ++ name :: names).Nodup) : seen.contains name = false := by
  rw [Bool.eq_false_iff]
  intro hname
  have hmem := List.contains_iff_mem.mp hname
  exact (List.nodup_append.mp h).2.2 name hmem name List.mem_cons_self rfl

theorem checkModelNames_eq_ok {ms : List ModelConfig} (hseen : seen.Nodup) :
    checkModelNames seen ms = .ok u ↔ (seen ++ ms.map (·.name)).Nodup := by
  induction ms generalizing seen with
  | nil => simpa [checkModelNames] using hseen
  | cons m ms ih =>
    rw [checkModelNames, List.map_cons]
    split
    · rename_i hm
      refine ⟨nofun, fun h => ?_⟩
      rw [contains_eq_false_of_nodup h] at hm
      cases hm
    · rename_i hm
      rw [ih (nodup_concat hseen (Bool.eq_false_iff.mpr hm)), List.append_assoc]
      rfl

theorem exists_checkAttributes {model : String} {as : List AttributeConfig}
    (hnames : (seen ++ as.map (·.name)).Nodup)
    (hstored : ∀ a ∈ as, a.primaryKey = true → a.computed = none) :
    checkAttributes model seen as = .ok (seen ++ as.map (·.name)) := by
  induction as generalizing seen with
  | nil => rw [checkAttributes, List.map_nil, List.append_nil]
  | cons a as ih =>
    rw [List.forall_mem_cons] at hstored
    have hkey : (a.primaryKey && a.computed.isSome) = false := by
      cases hp : a.primaryKey with
      | false => rfl
      | true => rw [hstored.1 hp]; rfl
    rw [checkAttributes, contains_eq_false_of_nodup hnames, hkey]
    have hrest : seen ++ (a :: as).map (·.name) = seen ++ [a.name] ++ as.map (·.name) := by simp
    rw [hrest] at hnames ⊢
    exact ih hnames hstored.2

/-- The model of a name is found where no two models have one name. -/
theorem find?_name_eq_some {name : String} (hnames : (models.map (·.name)).Nodup) :
    models.find? (·.name == name) = some target ↔ target ∈ models ∧ target.name = name := by
  constructor
  · intro h
    exact ⟨List.mem_of_find?_eq_some h, by simpa using List.find?_some h⟩
  · rintro ⟨hmem, rfl⟩
    have hsome : (models.find? (·.name == target.name)).isSome :=
      List.find?_isSome.mpr ⟨target, hmem, beq_iff_eq.mpr rfl⟩
    obtain ⟨found, hfound⟩ := Option.isSome_iff_exists.mp hsome
    have hname : found.name = target.name := by simpa using List.find?_some hfound
    rw [hfound, List.inj_on_of_nodup_map hnames (List.mem_of_find?_eq_some hfound) hmem hname]

/-! ## Keys -/

theorem hasAttribute_iff {name : String} :
    m.hasAttribute name = true ↔ name ∈ m.attributes.map (·.name) := by
  simp [ModelConfig.hasAttribute]

theorem checkKeys_eq_ok : checkKeys m target a = .ok u ↔ a.KeysExist m target := by
  unfold checkKeys AssociationConfig.KeysExist
  cases a.kind with
  | belongsTo | hasOne | hasMany =>
    cases a.targetKey <;>
      simp only [bind_eq_ok, requireAttribute_eq_ok, hasAttribute_iff, exists_and_left,
        exists_const, reduceCtorEq, Option.some.injEq, forall_eq', IsEmpty.forall_iff,
        implies_true, and_true]
  | belongsToMany =>
    cases a.link with
    | none => simp
    | some link =>
      cases a.targetKey <;> simp [requireAttribute_eq_ok, hasAttribute_iff]

theorem exists_checkAssociations {as : List AssociationConfig}
    (hnames : (models.map (·.name)).Nodup) (hmembers : (seen ++ as.map (·.name)).Nodup)
    (hkeys : ∀ a ∈ as, ∃ target ∈ models, target.name = a.target ∧ a.KeysExist m target) :
    checkAssociations models m seen as = .ok () := by
  induction as generalizing seen with
  | nil => rfl
  | cons a as ih =>
    rw [List.forall_mem_cons] at hkeys
    obtain ⟨⟨target, hmem, hname, hkey⟩, hrest⟩ := hkeys
    rw [checkAssociations, (find?_name_eq_some hnames).mpr ⟨hmem, hname⟩]
    dsimp only
    rw [contains_eq_false_of_nodup hmembers, checkKeys_eq_ok (u := ()) |>.mpr hkey]
    rw [List.map_cons, List.append_cons] at hmembers
    exact ih hmembers hrest

theorem checkModel_eq_ok (hnames : (models.map (·.name)).Nodup) :
    checkModel models m = .ok () ↔ m.Sound models := by
  constructor
  · intro h
    obtain ⟨seen, hattrs, hassocs⟩ := bind_eq_ok.mp h
    obtain ⟨rfl, hnodup⟩ := checkAttributes_eq_ok hattrs List.nodup_nil
    obtain ⟨a, ha, hp⟩ := List.any_eq_true.mp (primaryKey_of_checkModel h)
    refine ⟨?_, ⟨a, ha, hp⟩, stored_of_checkAttributes hattrs, fun a ha => ?_⟩
    · split at hassocs
      · cases hassocs
      · exact nodup_of_checkAssociations hassocs hnodup
    · obtain ⟨seen, hassocs⟩ := associations_of_checkModel h
      obtain ⟨target, htarget, hkeys⟩ := checkKeys_of_checkAssociations hassocs ha
      obtain ⟨hmem, hname⟩ := (find?_name_eq_some hnames).mp htarget
      exact ⟨target, hmem, hname, checkKeys_eq_ok.mp hkeys⟩
  · intro h
    have hattrs : checkAttributes m.name [] m.attributes = .ok (m.attributes.map (·.name)) :=
      exists_checkAttributes (List.nodup_append.mp h.members).1 h.stored
    obtain ⟨a, ha, hp⟩ := h.primaryKey
    have hany : m.attributes.any (·.primaryKey) = true := List.any_eq_true.mpr ⟨a, ha, hp⟩
    unfold checkModel
    rw [hattrs, ok_bind, hany]
    exact exists_checkAssociations hnames h.members h.keys

/-! ## Type names -/

theorem lookup_concat {k k' v : String} {l : List (String × String)} :
    (l ++ [(k, v)]).lookup k' = (l.lookup k').or (if k' = k then some v else none) := by
  rw [List.lookup_append, List.lookup_cons, List.lookup_nil]
  by_cases h : k' = k
  · rw [if_pos h, beq_iff_eq.mpr h]
  · rw [if_neg h, beq_eq_false_iff_ne.mpr h]

/-- What is claimed stays claimed, by the model that was first. -/
theorem lookup_of_claims {owners owners' claims : List (String × String)}
    (h : claims.foldlM claimTypeName owners = .ok owners') :
    (∀ type owner, owners.lookup type = some owner → owners'.lookup type = some owner) ∧
      ∀ claim ∈ claims, owners'.lookup claim.1 = some claim.2 := by
  induction claims generalizing owners with
  | nil =>
    cases pure_eq_ok.mp h
    exact ⟨fun _ _ h => h, nofun⟩
  | cons claim claims ih =>
    obtain ⟨owners₁, hclaim, h⟩ := bind_eq_ok.mp h
    obtain ⟨hkept, hclaims⟩ := ih h
    have hstep : (∀ type owner, owners.lookup type = some owner →
        owners₁.lookup type = some owner) ∧ owners₁.lookup claim.1 = some claim.2 := by
      unfold claimTypeName at hclaim
      split at hclaim
      · rename_i hnone
        cases hclaim
        refine ⟨fun type owner howner => ?_, ?_⟩
        · rw [lookup_concat, howner, Option.some_or]
        · rw [lookup_concat, hnone, if_pos rfl, Option.none_or]
      · rename_i owner howner
        split at hclaim
        · rename_i hsame
          cases hclaim
          exact ⟨fun _ _ h => h, hsame ▸ howner⟩
        · cases hclaim
    exact ⟨fun type owner howner => hkept type owner (hstep.1 type owner howner),
      List.forall_mem_cons.mpr ⟨hkept _ _ hstep.2, hclaims⟩⟩

/-- Every owner made one of the claims. -/
def Claimed (claims owners : List (String × String)) : Prop :=
  ∀ type owner, owners.lookup type = some owner → (type, owner) ∈ claims

theorem exists_claimTypeName {claims owners : List (String × String)} {claim : String × String}
    (h : ∀ x ∈ claims, ∀ y ∈ claims, x.1 = y.1 → x.2 = y.2) (howners : Claimed claims owners)
    (hclaim : claim ∈ claims) :
    ∃ owners', claimTypeName owners claim = .ok owners' ∧ Claimed claims owners' := by
  unfold claimTypeName
  cases hlookup : owners.lookup claim.1 with
  | none =>
    refine ⟨owners ++ [claim], rfl, fun type owner howner => ?_⟩
    rw [lookup_concat] at howner
    rcases Option.or_eq_some_iff.mp howner with hold | ⟨-, hnew⟩
    · exact howners type owner hold
    · split at hnew
      · rename_i htype
        cases hnew
        exact htype ▸ hclaim
      · cases hnew
  | some owner =>
    have hsame : owner = claim.2 := h _ (howners _ _ hlookup) claim hclaim rfl
    exact ⟨owners, if_pos hsame, howners⟩

/-- Type names are taken in exactly if none is claimed by two models. -/
theorem claimTypeNames_iff {claims : List (String × String)} :
    (∃ owners, claims.foldlM claimTypeName [] = .ok owners) ↔
      ∀ x ∈ claims, ∀ y ∈ claims, x.1 = y.1 → x.2 = y.2 := by
  constructor
  · rintro ⟨owners, h⟩ x hx y hy htype
    have hclaims := (lookup_of_claims h).2
    have howner : some x.2 = some y.2 := (hclaims x hx).symm.trans (htype ▸ hclaims y hy)
    exact Option.some.inj howner
  · intro h
    have hnone : Claimed claims [] := fun _ _ howner => by cases howner
    obtain ⟨owners, hrun, -⟩ :=
      exists_foldlM (fun owners howners claim => exists_claimTypeName h howners) hnone
    exact ⟨owners, hrun⟩

theorem mem_typeClaims {o : Options} {m : Model} {claim : String × String} :
    claim ∈ typeClaims o m ↔ claim.1 ∈ o.typeNames m.name ∧ claim.2 = m.name := by
  obtain ⟨type, owner⟩ := claim
  simp only [typeClaims, Options.typeNames, List.mem_cons, List.not_mem_nil, or_false,
    Prod.mk.injEq]
  tauto

theorem claims_iff {o : Options} {models : List Model} :
    (∃ owners, (models.flatMap (typeClaims o)).foldlM claimTypeName [] = .ok owners) ↔
      ∀ m ∈ models, ∀ n ∈ models, m.name ≠ n.name →
        ∀ type ∈ o.typeNames m.name, type ∉ o.typeNames n.name := by
  rw [claimTypeNames_iff]
  constructor
  · intro h m hm n hn hne type htype htype'
    exact hne (h (type, m.name) (List.mem_flatMap.mpr ⟨m, hm, mem_typeClaims.mpr ⟨htype, rfl⟩⟩)
      (type, n.name) (List.mem_flatMap.mpr ⟨n, hn, mem_typeClaims.mpr ⟨htype', rfl⟩⟩) rfl)
  · intro h x hx y hy htype
    obtain ⟨m, hm, hx⟩ := List.mem_flatMap.mp hx
    obtain ⟨n, hn, hy⟩ := List.mem_flatMap.mp hy
    obtain ⟨hxm, hxo⟩ := mem_typeClaims.mp hx
    obtain ⟨hyn, hyo⟩ := mem_typeClaims.mp hy
    rw [hxo, hyo]
    by_contra hne
    exact h m hm n hn hne x.1 hxm (htype ▸ hyn)

/-! ## Configurations -/

theorem validate_eq_ok : validate c = .ok () ↔
    (c.models.map (·.name)).Nodup ∧ ∀ m ∈ c.models, m.Sound c.models := by
  constructor
  · intro h
    obtain ⟨_, hnames, hmodels⟩ := bind_eq_ok.mp h
    have hnodup := (checkModelNames_eq_ok List.nodup_nil).mp hnames
    exact ⟨hnodup, fun m hm => (checkModel_eq_ok hnodup).mp (of_forM hmodels m hm)⟩
  · rintro ⟨hnodup, hmodels⟩
    unfold validate
    rw [(checkModelNames_eq_ok (u := ()) List.nodup_nil).mpr hnodup, ok_bind]
    exact forM_of_eq_ok fun m hm => (checkModel_eq_ok hnodup).mpr (hmodels m hm)

theorem exists_build_iff : (∃ s, build c = .ok s) ↔ c.Sound := by
  have hclaims : (∃ owners, ((c.models.map (·.resolve)).flatMap (typeClaims c.options)).foldlM
      claimTypeName [] = .ok owners) ↔ ∀ m ∈ c.models, ∀ n ∈ c.models, m.name ≠ n.name →
        ∀ type ∈ c.options.typeNames m.name, type ∉ c.options.typeNames n.name := by
    rw [claims_iff]
    simp only [List.forall_mem_map]
    rfl
  constructor
  · rintro ⟨s, h⟩
    obtain ⟨_, hv, h⟩ := bind_eq_ok.mp h
    obtain ⟨owners, ho, -⟩ := bind_eq_ok.mp h
    obtain ⟨hnames, hmodels⟩ := validate_eq_ok.mp hv
    exact ⟨hnames, hmodels, hclaims.mp ⟨owners, ho⟩⟩
  · intro h
    obtain ⟨owners, ho⟩ := hclaims.mpr h.types
    refine ⟨⟨c.models.map (·.resolve), c.options⟩, ?_⟩
    unfold build
    rw [validate_eq_ok.mpr ⟨h.names, h.models⟩, ok_bind]
    dsimp only
    rw [ho]
    rfl

/-- A configuration is accepted exactly if it is sound. The associations of an accepted schema have
their targets, and correlate on attributes of both sides. -/
theorem accepted_iff_sound (c : Config) : ((∃ s, build c = .ok s) ↔ c.Sound) ∧
    ∀ s, build c = .ok s → ∀ m ∈ s.models, ∀ a ∈ m.associations,
      ∃ t, s.targetOf a = .ok t ∧ a.parentKey m ∈ m.attributeNames ∧
        a.childKey t ∈ t.attributeNames := by
  refine ⟨exists_build_iff, fun s h m hm a ha => ?_⟩
  obtain ⟨_, _, target, -, -, ht, -, -⟩ := exists_target_of_build h hm ha
  exact ⟨target.resolve, ht, (sound_of_build h m hm).parentKey a ha, childKey_of_build h hm ha ht⟩

end Schema

/-! ### Courses with their teacher and their pupils -/

def school : Config where
  models := [
    { name := "Teacher"
      attributes := [{ name := "id", type := "INTEGER", primaryKey := true }]
      associations := [{ kind := .hasMany, target := "Course", foreignKey := "teacherId" }] },
    { name := "Course"
      attributes := [{ name := "id", type := "INTEGER", primaryKey := true },
        { name := "teacherId", type := "INTEGER" }]
      associations := [
        { kind := .belongsTo, target := "Teacher", foreignKey := "teacherId" },
        { kind := .belongsToMany
          target := "Pupil"
          foreignKey := "courseId"
          link := some ⟨"enrolments", "courseId", "pupilId"⟩ }] },
    { name := "Pupil"
      attributes := [{ name := "id", type := "INTEGER", primaryKey := true }] }]

def schoolSchema : Schema := ⟨school.models.map (·.resolve), school.options⟩

theorem build_school : Schema.build school = .ok schoolSchema := by decide

theorem school_accepted : school.Sound ∧
    ∀ m ∈ schoolSchema.models, ∀ a ∈ m.associations,
      ∃ t, schoolSchema.targetOf a = .ok t ∧ a.parentKey m ∈ m.attributeNames ∧
        a.childKey t ∈ t.attributeNames :=
  ⟨(Schema.accepted_iff_sound school).1.mp ⟨schoolSchema, build_school⟩,
    (Schema.accepted_iff_sound school).2 schoolSchema build_school⟩

end RelQuery

import RelQuery.Proofs.Schema.Accepted

/-!
# Fields of associations

An association is shown as a field, its name in camel case, and a field leads to the last
association that is shown as it, unless it is the name of an attribute. So the fields of a model
lead back to their associations exactly if no two members are shown under one name. Names that
differ as they are written may be one in camel case, and a configuration is accepted all the same.
-/

namespace RelQuery

namespace Model

variable {m : Model} {a b : Association} {field : String}

theorem exists_findRev? {p : Association → Bool} {as : List Association} (ha : a ∈ as)
    (hp : p a = true) : ∃ b, as.findRev? p = some b ∧ b ∈ as ∧ p b = true := by
  rw [List.findRev?_eq_find?_reverse]
  obtain ⟨b, hb⟩ := Option.isSome_iff_exists.mp
    (List.find?_isSome.mpr ⟨a, List.mem_reverse.mpr ha, hp⟩)
  exact ⟨b, hb, List.mem_reverse.mp (List.mem_of_find?_eq_some hb), List.find?_some hb⟩

/-- The last association of a kind is the one that no other of the kind follows. -/
theorem findRev?_eq_some_iff {p : Association → Bool} {as : List Association} (hnodup : as.Nodup)
    (ha : a ∈ as) (hp : p a = true) :
    as.findRev? p = some a ↔ ∀ b, [a, b].Sublist as → p b = false := by
  induction as with
  | nil => cases ha
  | cons x as ih =>
    obtain ⟨hx, hnodup⟩ := List.nodup_cons.mp hnodup
    rw [List.findRev?]
    by_cases hmem : a ∈ as
    · have hne : a ≠ x := fun h => hx (h ▸ hmem)
      have hafter : ∀ b, [a, b].Sublist (x :: as) ↔ [a, b].Sublist as := fun b => by
        rw [List.sublist_cons_iff]
        simp [hne]
      obtain ⟨b, hlast, -, -⟩ := exists_findRev? hmem hp
      simp only [hafter, ← ih hnodup hmem, hlast]
    · obtain rfl : a = x := (List.mem_cons.mp ha).resolve_right hmem
      have hafter : ∀ b, [a, b].Sublist (a :: as) ↔ b ∈ as := fun b => by
        rw [List.cons_sublist_cons, List.singleton_sublist]
      simp only [hafter]
      by_cases hlater : ∃ b ∈ as, p b = true
      · obtain ⟨b, hb, hpb⟩ := hlater
        obtain ⟨c, hlast, hc, hpc⟩ := exists_findRev? hb hpb
        rw [hlast]
        refine iff_of_false (fun h => hmem (Option.some.inj h ▸ hc)) fun h => ?_
        rw [h c hc] at hpc
        cases hpc
      · have hnone : as.findRev? p = none := by
          rw [List.findRev?_eq_find?_reverse, List.find?_eq_none]
          exact fun b hb hpb => hlater ⟨b, List.mem_reverse.mp hb, hpb⟩
        rw [hnone, hp]
        refine iff_of_true rfl fun b hb => ?_
        exact Bool.eq_false_iff.mpr fun hpb => hlater ⟨b, hb, hpb⟩

section
variable (hnames : (m.associations.map (·.name)).Nodup) (ha : a ∈ m.associations)
include hnames ha

theorem associationForField?_eq_findRev? : m.associationForField? a.fieldName =
    m.associations.findRev? (·.fieldName == a.fieldName) := by
  obtain ⟨b, hlast, hb, -⟩ := exists_findRev? ha (p := (·.fieldName == a.fieldName)) (by simp)
  rw [associationForField?, associationName, hlast]
  exact association?_name hnames hb

/-- A field leads back to an association that none follows with the same field. -/
theorem associationForField?_fieldName_iff : m.associationForField? a.fieldName = some a ↔
    ∀ b, [a, b].Sublist m.associations → b.fieldName ≠ a.fieldName := by
  have hlast := findRev?_eq_some_iff (p := (·.fieldName == a.fieldName)) hnames.of_map ha
    (beq_iff_eq.mpr rfl)
  simpa [associationForField?_eq_findRev? hnames ha] using hlast

end

theorem shape_ne (a : Attribute) (b : Association) : a.shape ≠ b.shape := by
  unfold Attribute.shape Association.shape
  split <;> split <;> nofun

end Model

namespace Schema

variable {c : Config} {s : Schema} {m : Model} {a : Association}

/-- The field of an association leads back to it, and is a list of the target for many, and else the
target. -/
def LeadsBack (s : Schema) (m : Model) (a : Association) : Prop :=
  m.associationForField? (s.fieldName m.name a.name) = some a ∧
    m.fieldShape? (s.fieldName m.name a.name) =
      some (if a.kind = .hasMany ∨ a.kind = .belongsToMany then .list (.nonNull (.object a.target))
        else .object a.target)

instance : Decidable (LeadsBack s m a) := inferInstanceAs (Decidable (_ ∧ _))

theorem shape_eq : a.shape =
    if a.kind = .hasMany ∨ a.kind = .belongsToMany then .list (.nonNull (.object a.target))
    else .object a.target := by
  unfold Association.shape
  cases a.kind <;> rfl

theorem model?_name_of_build (h : build c = .ok s) (hm : m ∈ s.models) :
    s.model? m.name = some m := by
  obtain ⟨_, hv, -⟩ := bind_eq_ok.mp h
  obtain ⟨m, hm', rfl, -⟩ := exists_of_build h hm
  rw [model?, (checked_of_build h).1, List.find?_map]
  exact congrArg (Option.map _) ((find?_name_eq_some (validate_eq_ok.mp hv).1).mpr ⟨hm', rfl⟩)

section
variable (h : build c = .ok s) (hm : m ∈ s.models) (ha : a ∈ m.associations)
include h hm ha

/-- In an accepted schema an association is shown as its name in camel case. -/
theorem fieldName_of_build : s.fieldName m.name a.name = a.fieldName := by
  have hnames := nodup_associations_of_build h hm
  rw [fieldName, model?_name_of_build h hm, Option.bind_some, Model.association?_name hnames ha]

theorem leadsBack_iff : s.LeadsBack m a ↔ a.fieldName ∉ m.attributeNames ∧
    ∀ b, [a, b].Sublist m.associations → b.fieldName ≠ a.fieldName := by
  have hnames := nodup_associations_of_build h hm
  rw [LeadsBack, ← shape_eq, fieldName_of_build h hm ha,
    ← Model.associationForField?_fieldName_iff hnames ha, Model.fieldShape?]
  cases hattr : m.attribute? a.fieldName with
  | some attr =>
    have hmem : a.fieldName ∈ m.attributeNames :=
      Model.attribute?_isSome.mp (by rw [hattr]; rfl)
    refine iff_of_false (fun hback => ?_) fun hback => hback.1 hmem
    exact Model.shape_ne attr a (Option.some.inj hback.2)
  | none =>
    have hmem : a.fieldName ∉ m.attributeNames := fun hmem => by
      have hsome := Model.attribute?_isSome.mpr hmem
      rw [hattr] at hsome
      cases hsome
    constructor
    · exact fun hback => ⟨hmem, hback.1⟩
    · exact fun hback => ⟨hback.2, congrArg (Option.map (·.shape)) hback.2⟩

end

/-- The field of an association leads back to it, with its shape, exactly if no attribute has the
name of the field and no association that follows is shown as it. All fields of a model lead back
exactly if all its members are shown under names of their own. -/
theorem fields_lead_back (h : build c = .ok s) (hm : m ∈ s.models) :
    (∀ a ∈ m.associations, s.fieldName m.name a.name = a.fieldName ∧
      (s.LeadsBack m a ↔ a.fieldName ∉ m.attributeNames ∧
        ∀ b, [a, b].Sublist m.associations → b.fieldName ≠ a.fieldName)) ∧
    ((∀ a ∈ m.associations, s.LeadsBack m a) ↔
      (m.attributeNames ++ m.associationFields).Nodup) := by
  refine ⟨fun a ha => ⟨fieldName_of_build h hm ha, leadsBack_iff h hm ha⟩, ?_⟩
  have hattrs := nodup_attributes_of_build h hm
  have hfields : m.associationFields.Nodup ↔
      ∀ {a b : Association}, [a, b].Sublist m.associations → a.fieldName ≠ b.fieldName := by
    rw [Model.associationFields, List.Nodup, List.pairwise_map, List.pairwise_iff_forall_sublist]
  rw [List.nodup_append, hfields]
  constructor
  · intro hback
    refine ⟨hattrs, fun {a b} hab => ?_, fun name hname field hfield => ?_⟩
    · have ha : a ∈ m.associations := hab.subset List.mem_cons_self
      exact (((leadsBack_iff h hm ha).mp (hback a ha)).2 b hab).symm
    · obtain ⟨a, ha, rfl⟩ := List.mem_map.mp hfield
      exact fun heq => ((leadsBack_iff h hm ha).mp (hback a ha)).1 (heq ▸ hname)
  · rintro ⟨-, hdistinct, hapart⟩ a ha
    refine (leadsBack_iff h hm ha).mpr ⟨fun hmem => ?_, fun b hab => (hdistinct hab).symm⟩
    exact hapart _ hmem _ (List.mem_map_of_mem ha) rfl

end Schema

/-! ### The school, and a shop with names that are one in camel case -/

theorem school_leadsBack : Schema.build school = .ok schoolSchema ∧
    ∀ m ∈ schoolSchema.models, ∀ a ∈ m.associations, schoolSchema.LeadsBack m a := by
  refine ⟨build_school, fun m hm => (Schema.fields_lead_back build_school hm).2.mpr ?_⟩
  revert m
  decide

/-- Customers with all orders and the latest one, orders with the customer's name and the customer
for it. -/
def camels : Config where
  models := [
    { name := "Customer"
      attributes := [{ name := "id", type := "INTEGER", primaryKey := true }]
      associations := [
        { kind := .hasMany
          target := "Order"
          declaredName := some "latestOrder"
          foreignKey := "customerId" },
        { kind := .hasOne
          target := "Order"
          declaredName := some "latest_order"
          foreignKey := "customerId" }] },
    { name := "Order"
      attributes := [{ name := "id", type := "INTEGER", primaryKey := true },
        { name := "customerId", type := "INTEGER" }, { name := "customerName", type := "STRING" }]
      associations := [{
        kind := .belongsTo
        target := "Customer"
        declaredName := some "customer_name"
        foreignKey := "customerId" }] }]

def camelsSchema : Schema := ⟨camels.models.map (·.resolve), camels.options⟩

/-- The field of the first association leads to the second, that of the third to an attribute. -/
theorem camels_not_leadsBack : Schema.build camels = .ok camelsSchema ∧
    (∃ m ∈ camelsSchema.models, ∃ a ∈ m.associations, ∃ b, b ≠ a ∧
      m.associationForField? (camelsSchema.fieldName m.name a.name) = some b ∧
      m.fieldShape? (camelsSchema.fieldName m.name a.name) ≠ some a.shape) ∧
    ∃ m ∈ camelsSchema.models, ∃ a ∈ m.associations, ∃ attr ∈ m.attributes,
      m.fieldShape? (camelsSchema.fieldName m.name a.name) = some attr.shape ∧
      ¬camelsSchema.LeadsBack m a := by
  refine ⟨by decide, ⟨_, List.mem_cons_self, _, List.mem_cons_self, ?_⟩,
    ⟨_, List.mem_cons_of_mem _ List.mem_cons_self, _, List.mem_cons_self, ?_⟩⟩
  · exact ⟨_, by decide, rfl, by decide⟩
  · exact ⟨_, List.mem_cons_of_mem _ (List.mem_cons_of_mem _ List.mem_cons_self), by decide,
      by decide⟩

end RelQuery

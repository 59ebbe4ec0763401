import RelQuery.Proofs.Plan.Keys
import RelQuery.Proofs.Plan.LookBack
import RelQuery.Proofs.Rows.Unjoin

/-!
# Associations that are null

A joined row is taken for none if none of its columns says anything. A node that selects an
attribute that is never null has such a row only where nothing was joined. What a node of a list
selects is what the selection sets there ask for, with the primary key of a to-many association; to
an object that may be missing no key is added. So an object all of whose selected attributes are
null comes out as `null`, although it exists.
-/

namespace RelQuery

/-! ## Rows told from none -/

/-- The name of an attribute that is never null. -/
def Model.NeverNull (t : Model) (name : String) : Prop :=
  ∃ a, t.attribute? name = some a ∧ a.nullable = false

/-- The name of an attribute that is never null and holds no documents, which may be empty. -/
def Model.Telling (t : Model) (name : String) : Prop :=
  ∃ a, t.attribute? name = some a ∧ a.nullable = false ∧ a.type.isStructured = false

/-- In an accepted schema a primary key is never null. -/
theorem Schema.neverNull_primaryKey {s : Schema} {c : Config} (hs : build c = .ok s) {m : Model}
    (hm : m ∈ s.models) : m.NeverNull m.primaryKey := by
  obtain ⟨a, ha, hkey, -⟩ := exists_primaryKey_of_build hs hm
  exact ⟨a.resolve, ha, by simp [AttributeConfig.resolve, hkey]⟩

namespace Rows

variable {t : Model} {n : Include} {value : String → Document} {name : String}

/-- The values of a row that exists: `null` only where it may be, and where an attribute holds no
documents, nothing else that says nothing. -/
structure Existing (t : Model) (value : String → Document) : Prop where
  notNull : ∀ name, t.NeverNull name → value name ≠ .null
  scalar : ∀ name a, t.attribute? name = some a → a.type.isStructured = false →
    Blank (value name) → value name = .null

/-- The object for a node of joined rows is blank exactly where no row was joined. -/
def Told (t : Model) (n : Include) : Prop :=
  ∀ child : Option Chosen, (∀ value below, child = some (.row value below) → Existing t value) →
    (allBlank (nested n child) = true ↔ child = none)

theorem Existing.isBlank_of_telling (h : Existing t value) (hname : t.Telling name) :
    isBlank (value name) = false := by
  obtain ⟨a, ha, hnull, htype⟩ := hname
  rw [← Bool.not_eq_true, isBlank_iff]
  intro hblank
  exact h.notNull name ⟨a, ha, hnull⟩ (h.scalar name a ha htype hblank)

/-- The row of a model that says as little as it may. -/
def leastValue (t : Model) (name : String) : Document :=
  match t.attribute? name with
  | none => .null
  | some a => if a.nullable then .null else if a.type.isStructured then .arr [] else .bool true

theorem existing_leastValue (t : Model) : Existing t (leastValue t) where
  notNull name := by
    rintro ⟨a, ha, hnull⟩
    rw [leastValue, ha]
    dsimp only
    rw [if_neg (Bool.eq_false_iff.mp hnull)]
    split <;> nofun
  scalar name a ha htype hblank := by
    rw [leastValue, ha] at hblank ⊢
    dsimp only at hblank ⊢
    rw [htype, if_neg Bool.false_ne_true] at hblank
    split at hblank
    · exact if_pos ‹_›
    · cases hblank

theorem isBlank_leastValue (h : ¬t.Telling name) : isBlank (leastValue t name) = true := by
  unfold leastValue
  split
  · rfl
  · rename_i a ha
    split
    · rfl
    · rename_i hnull
      have htype : a.type.isStructured = true := by
        by_contra htype
        exact h ⟨a, ha, Bool.eq_false_iff.mpr hnull, Bool.eq_false_iff.mpr htype⟩
      rw [if_pos htype]
      rfl

/-- Rows are told from none exactly if a column is selected that says something in all of them. -/
theorem told_iff : Told t n ↔ ∃ name ∈ n.attributes, t.Telling name := by
  constructor
  · intro h
    by_contra hnone
    have hsome : allBlank (nested n (some (.row (leastValue t) fun _ => none))) ≠ true := by
      intro hblank
      refine nomatch (h _ ?_).mp hblank
      rintro value below ⟨⟩
      exact existing_leastValue t
    refine hsome ?_
    rw [nested_eq, allBlank_iff, List.forall_mem_append]
    constructor
    · intro f hf
      obtain ⟨name, hname, rfl⟩ := List.mem_map.mp hf
      exact isBlank_leastValue fun htelling => hnone ⟨name, hname, htelling⟩
    · intro f hf
      obtain ⟨b, -, -, rfl⟩ := mem_nestedAll.mp hf
      rw [isBlank]
      exact allBlank_nested_none b
  · rintro ⟨name, hname, htelling⟩ child hchild
    refine ⟨fun hblank => ?_, fun hnone => hnone ▸ allBlank_nested_none n⟩
    rcases child with _ | ⟨value, below⟩
    · rfl
    · rw [nested_eq, allBlank_iff] at hblank
      have hvalue : isBlank (value name) = true :=
        hblank (name, value name) (List.mem_append_left _ (List.mem_map_of_mem hname))
      cases ((hchild value below rfl).isBlank_of_telling htelling).symm.trans hvalue

end Rows

/-! ## What nodes select -/

namespace Include

variable {s : Schema} {Q : Model → Filter → Prop} {m : Model} {ns : List Include} {n : Include}
  {path : List String} {x : String}

/-- The path of a node leads to a model, by an association of the kind of the node. -/
theorem Forest.exists_modelAt (hns : Forest s Q m ns) (h : nodeAt? path ns = some n) :
    ∃ t, s.modelAt m path = .ok t ∧ (n.kind.isMany = true ↔ manyAt s path m = true) := by
  induction path generalizing m ns with
  | nil => cases h
  | cons name rest ih =>
    cases rest with
    | nil =>
      have hroot := hns.rooted_of_child? h
      have hname : n.name = name := name_of_child? h
      obtain ⟨assoc, t, hf⟩ := hroot.exists_follow
      refine ⟨t, Schema.modelAt_singleton (hname ▸ hf), ?_⟩
      rw [manyAt_cons (hname ▸ hf), hroot.kind hf]
      simp [manyAt]
    | cons next rest =>
      rw [nodeAt?_cons_cons] at h
      obtain ⟨c, hc, h⟩ := Option.bind_eq_some_iff.mp h
      have hroot := hns.rooted_of_child? hc
      have hname : c.name = name := name_of_child? hc
      obtain ⟨assoc, t, hf⟩ := hroot.exists_follow
      obtain ⟨u, hu, hmany⟩ := ih (hroot.includes hf) h
      refine ⟨u, Schema.modelAt_cons.mpr ⟨assoc, t, hname ▸ hf, hu⟩, ?_⟩
      refine hmany.trans ((manyAt_cons (hname ▸ hf)).trans ?_).symm
      simp

theorem mem_selectedAt_of_nodeAt? (root : List String) (h : nodeAt? path ns = some n) :
    x ∈ selectedAt root ns path ↔ x ∈ n.attributes := by
  cases path with
  | nil => cases h
  | cons name rest =>
    have hbare : bareAt? (name :: rest) ns = some n.bare := congrArg (Option.map bare) h
    rw [mem_selectedAt_cons, hbare]
    constructor
    · rintro ⟨_, ⟨⟩, hx⟩
      exact hx
    · exact fun hx => ⟨n.bare, rfl, hx⟩

end Include

open Include (levelsAt nodeAt? manyAt)

namespace Query

variable {c : Config} {s : Schema} {m : Model} {n : Include} {p : Plan} {model : String}
  {field : Field} {fields : List Field} {info : ExecutionInfo} {path : List String}

/-- A node of a list that selects something selects what is asked for at its path, and for many the
primary key. -/
theorem mem_attributes_of_rootList (hm : s.model model = .ok m)
    (hfields : info.expand field.selections = .ok fields)
    (h : rootList s model field info = .ok p) (hn : nodeAt? path p.includes = some n)
    (hne : n.attributes ≠ []) {t : Model} (ht : s.modelAt m path = .ok t) (x : String) :
    x ∈ n.attributes ↔ (∃ here, (t, here) ∈ levelsAt s info path m fields ∧ Include.Asks t here x) ∨
      manyAt s path m = true ∧ x = t.primaryKey := by
  obtain ⟨level, hasked, hplan, hgrouped⟩ := exists_level_of_rootList hm hfields h
  obtain ⟨y, hy⟩ := List.exists_mem_of_ne_nil _ hne
  have hgroup : p.group = [] := by
    -- Where rows are grouped, nodes serve filters and orders only.
    by_contra hgroup
    have hnothing := (hgrouped hgroup).mem_selectedAt.mp
      ((Include.mem_selectedAt_of_nodeAt? [] hn).mpr hy)
    cases path with
    | nil => cases hn
    | cons hop rest =>
      obtain ⟨b, hb, -⟩ := Include.mem_selectedAt_cons.mp hnothing
      rw [Include.bareAt?_nil] at hb
      cases hb
  have hmem : ∀ x, x ∈ n.attributes ↔ ∃ here, (t, here) ∈ levelsAt s info path m fields ∧
      (Include.Asks t here x ∨ manyAt s path m = true ∧ x = t.primaryKey) := by
    intro x
    rw [← Include.mem_selectedAt_of_nodeAt? level.attributes hn,
      (hplan hgroup).1.mem_selectedAt, hasked.selected]
    constructor
    · rintro ⟨u, here, hlevel, hx⟩
      cases ht.symm.trans (Include.modelAt_of_mem_levelsAt hlevel)
      exact ⟨here, hlevel, hx⟩
    · rintro ⟨here, hlevel, hx⟩
      exact ⟨t, here, hlevel, hx⟩
  rw [hmem]
  constructor
  · rintro ⟨here, hlevel, hx | hx⟩
    exacts [.inl ⟨here, hlevel, hx⟩, .inr hx]
  · rintro (⟨here, hlevel, hx⟩ | hx)
    · exact ⟨here, hlevel, .inl hx⟩
    · obtain ⟨here, hlevel, -⟩ := (hmem y).mp hy
      exact ⟨here, hlevel, .inr hx⟩

/-- A node of a list that selects something tells rows from none exactly if it selects an attribute
that is never null (and holds no documents). It selects one that is never null exactly if it is
to-many, or one is asked for at its path. -/
theorem told_of_rootList (hs : Schema.build c = .ok s) (h : rootList s model field info = .ok p) :
    ∃ m fields, s.model model = .ok m ∧ info.expand field.selections = .ok fields ∧
      ∀ path n, nodeAt? path p.includes = some n → n.attributes ≠ [] → ∃ t,
        s.modelAt m path = .ok t ∧
        (∀ x, x ∈ n.attributes ↔ (∃ here, (t, here) ∈ levelsAt s info path m fields ∧
          Include.Asks t here x) ∨ n.kind.isMany = true ∧ x = t.primaryKey) ∧
        ((∃ x ∈ n.attributes, t.NeverNull x) ↔ n.kind.isMany = true ∨ ∃ here x,
          (t, here) ∈ levelsAt s info path m fields ∧ Include.Asks t here x ∧ t.NeverNull x) ∧
        (Rows.Told t n ↔ ∃ x ∈ n.attributes, t.Telling x) := by
  obtain ⟨m, fields, hm, hfields⟩ := exists_fields_of_rootList h
  have hregular : p.Regular s (fun _ _ => True) m :=
    regular_rootList (Include.filterClosed_true s) hm h
  refine ⟨m, fields, hm, hfields, fun path n hn hne => ?_⟩
  obtain ⟨t, ht, hkind⟩ := hregular.includes.exists_modelAt hn
  have hmem : ∀ x, x ∈ n.attributes ↔ (∃ here, (t, here) ∈ levelsAt s info path m fields ∧
      Include.Asks t here x) ∨ n.kind.isMany = true ∧ x = t.primaryKey := by
    intro x
    rw [hkind]
    exact mem_attributes_of_rootList hm hfields h hn hne ht x
  refine ⟨t, ht, hmem, ?_, Rows.told_iff⟩
  have hkey : t.NeverNull t.primaryKey :=
    Schema.neverNull_primaryKey hs (Schema.mem_of_modelAt (Schema.mem_of_model hm) ht)
  constructor
  · rintro ⟨x, hx, hnull⟩
    rcases (hmem x).mp hx with ⟨here, hlevel, hasks⟩ | ⟨hmany, -⟩
    · exact .inr ⟨here, x, hlevel, hasks, hnull⟩
    · exact .inl hmany
  · rintro (hmany | ⟨here, x, hlevel, hasks, hnull⟩)
    · exact ⟨t.primaryKey, (hmem _).mpr (.inr ⟨hmany, rfl⟩), hkey⟩
    · exact ⟨x, (hmem x).mpr (.inl ⟨here, hlevel, hasks⟩), hnull⟩

/-! ### Orders with their customer -/

def ordersWith (attributes : List String) : Field where
  name := "list"
  selections := [.field "id" none [] [],
    .field "customer" none [] (attributes.map fun name => .field name none [] [])]

def customerWith (attributes : List String) : Include where
  target := "Customer"
  name := "customer"
  kind := .belongsTo
  attributes := attributes

def ordersPlan (attributes : List String) : Plan where
  model := "Order"
  attributes := [.column "id", .column "customerId"]
  includes := [customerWith attributes]

theorem rootList_ordersWith_id :
    rootList shopSchema "Order" (ordersWith ["id", "country"]) {} =
      .ok (ordersPlan ["id", "country"]) := rfl

theorem ordersWith_id_told : ∃ t, shopSchema.modelAt orderModel ["customer"] = .ok t ∧
    Rows.Told t (customerWith ["id", "country"]) := by
  obtain ⟨m, fields, hm, -, H⟩ := told_of_rootList build_shop rootList_ordersWith_id
  cases (rfl : shopSchema.model "Order" = .ok orderModel).symm.trans hm
  obtain ⟨t, ht, -, -, htold⟩ := H ["customer"] _ rfl (List.cons_ne_nil _ _)
  cases (rfl : shopSchema.modelAt orderModel ["customer"] = .ok customerModel).symm.trans ht
  exact ⟨_, rfl, htold.mpr ⟨"id", List.mem_cons_self, _, rfl, rfl, rfl⟩⟩

/-- A customer whose country is not known. -/
def someCustomer (name : String) : Document :=
  if name = "id" then .num (.int 17 (by decide) (by decide)) else .null

def someOrder : Rows.Nested :=
  .row (fun name =>
      if name = "id" then .num (.int 11 (by decide) (by decide))
      else if name = "customerId" then someCustomer "id"
      else .null)
    fun name => if name = "customer" then [.row someCustomer fun _ => []] else []

theorem existing_someCustomer : Rows.Existing customerModel someCustomer where
  notNull := by
    rintro name ⟨a, ha, hnull⟩
    have hid : name = "id" := by
      have hmem : a ∈ customerModel.attributes := List.mem_of_find?_eq_some ha
      have hname := Model.name_of_attribute? ha
      rcases List.mem_cons.mp hmem with rfl | hmem
      · exact hname.symm
      · cases List.mem_singleton.mp hmem
        cases hnull
    subst hid
    nofun
  scalar name _ _ _ hblank := by
    unfold someCustomer at hblank ⊢
    by_cases hid : name = "id"
    · rw [if_pos hid] at hblank
      cases hblank
    · exact if_neg hid

/-- Of a customer only the country is asked for, which may be null. So the customer of this order
comes out as `null`. -/
theorem ordersWith_country_lost :
    rootList shopSchema "Order" (ordersWith ["country"]) {} = .ok (ordersPlan ["country"]) ∧
    (¬∃ name ∈ (customerWith ["country"]).attributes, customerModel.NeverNull name) ∧
    Rows.Existing customerModel someCustomer ∧
    Rows.assemble shopSchema orderModel [customerWith ["country"]]
        (Rows.joinRows ["id", "customerId"] [customerWith ["country"]] someOrder) =
      .ok [.obj [("id", someOrder.value "id"), ("customerId", someCustomer "id"),
        ("customer", .null)]] ∧
    Rows.document ["id", "customerId"] [customerWith ["country"]] someOrder =
      .obj [("id", someOrder.value "id"), ("customerId", someCustomer "id"),
        ("customer", .obj [("country", .null)])] := by
  refine ⟨rfl, ?_, existing_someCustomer, rfl, rfl⟩
  rintro ⟨name, hname, a, ha, hnull⟩
  cases List.mem_singleton.mp hname
  cases ha
  cases hnull

end Query

end RelQuery

import Mathlib.Data.List.Perm.Subperm
import RelQuery.Proofs.Include.Levels

/-!
# How many to-many associations a level joins

A selection set joins no more to-many associations than there is room for. A level of the planned
tree may come from several selection sets, each with room of its own, so below the root it joins no
more than there is room for in all of them.
-/

namespace RelQuery.Include

variable {s : Schema} {Q : Model → Filter → Prop} {info : ExecutionInfo} {m parent : Model}
  {fields : List Field} {n : Include} {ns : List Include} {name model : String}
  {path : List String} {selections : List Selection} {filter : Option Filter}
  {orders : List (List String)} {p : PartialPlan}

/-! ## Nodes of one level -/

/-- The nodes right below the end of a path. -/
def belowAt : List String → List Include → List Include
  | [], ns => ns
  | name :: rest, ns => belowAt rest (under name ns)

theorem bareAt?_belowAt : bareAt? [name] (belowAt path ns) = bareAt? (path ++ [name]) ns := by
  induction path generalizing ns with
  | nil => rfl
  | cons hop rest ih =>
    obtain ⟨next, below, heq⟩ := List.exists_cons_of_ne_nil
      (List.append_ne_nil_of_right_ne_nil rest (List.cons_ne_nil name []))
    rw [belowAt, ih, List.cons_append, heq, bareAt?_under]

theorem belowAt_nil : belowAt path [] = [] := by
  induction path with
  | nil => rfl
  | cons name rest ih => exact ih

/-- There are nodes only where the schema has the path, and they are a forest there. -/
theorem Forest.exists_belowAt (hns : Forest s Q m ns) (hne : belowAt path ns ≠ []) :
    ∃ parent, s.modelAt m path = .ok parent ∧ Forest s Q parent (belowAt path ns) := by
  induction path generalizing m ns with
  | nil => exact ⟨m, rfl, hns⟩
  | cons hop rest ih =>
    cases hc : child? hop ns with
    | none =>
      rw [belowAt, under_of_none hc, belowAt_nil] at hne
      exact (hne rfl).elim
    | some c =>
      obtain ⟨assoc, t, hf⟩ := (hns.rooted_of_child? hc).exists_follow
      have hf := name_of_child? hc ▸ hf
      obtain ⟨parent, hparent, hbelow⟩ := ih (hns.under hf) hne
      exact ⟨parent, Schema.modelAt_cons.mpr ⟨assoc, t, hf, hparent⟩, hbelow⟩

/-- The to-many associations that select something. -/
def selectedMany (ns : List Include) : List Include :=
  ns.filter fun n => n.kind.isMany && !n.attributes.isEmpty

theorem mem_selectedMany :
    n ∈ selectedMany ns ↔ n ∈ ns ∧ n.kind.isMany = true ∧ n.attributes ≠ [] := by
  simp [selectedMany]

/-! ## Planned trees -/

/-- A planned tree is that of the selection set, with the hops of filter and orders. -/
theorem exists_level_of_plan (hm : s.model model = .ok m)
    (hfields : info.expand selections = .ok fields)
    (h : Include.plan s info model selections filter orders = .ok p) : ∃ level,
    Level.Asked s info m fields level ∧ Forest s (fun _ _ => True) m p.includes ∧
      Carries level.includes p.includes ∧ p.attributes = level.attributes := by
  obtain ⟨m', hm', h⟩ := bind_eq_ok.mp h
  cases hm.symm.trans hm'
  obtain ⟨fields', hfields', h⟩ := bind_eq_ok.mp h
  cases hfields.symm.trans hfields'
  obtain ⟨level, hlevel, h⟩ := bind_eq_ok.mp h
  have hforest : Forest s (fun _ _ => True) m level.includes :=
    Level.forest_planLevel (filterClosed_true s).toFilterBuilt hlevel
  obtain ⟨includes, hforest₁, hcarries₁, h⟩ : ∃ includes, Forest s (fun _ _ => True) m includes ∧
      Carries level.includes includes ∧
      (orders.foldlM (fun ns hops => ensurePath s false hops m ns) includes >>= fun includes =>
        .ok { model := m.name, attributes := level.attributes, requested := level.requested
              includes }) = .ok p := by
    cases filter with
    | none =>
      obtain ⟨includes, ⟨⟩, h⟩ := bind_eq_ok.mp h
      exact ⟨level.includes, hforest, .refl _, h⟩
    | some f =>
      obtain ⟨includes, hi, h⟩ := bind_eq_ok.mp h
      exact ⟨includes, hforest.attachFilter hi, .of_extends (extends_attachFilter hforest hi), h⟩
  obtain ⟨includes', hi, h⟩ := bind_eq_ok.mp h
  cases h
  refine ⟨level, Level.asked_planLevel hlevel, ?_, hcarries₁.trans
    (.of_extends (extends_foldlM_ensurePath id hforest₁ hi)), rfl⟩
  exact foldlM_preserves (P := Forest s (fun _ _ => True) m)
    (fun _ _ _ _ hns h => hns.ensurePath h) hforest₁ hi

/-- A to-many association that selects something is one that a selection set has room for. -/
theorem exists_enrolled {level : Level} (hasked : Level.Asked s info m fields level)
    (hcarries : Carries level.includes ns)
    (hforest : Forest s (fun _ _ => True) parent (belowAt path ns))
    (hparent : s.modelAt m path = .ok parent) (hn : n ∈ selectedMany (belowAt path ns)) :
    ∃ here, (parent, here) ∈ levelsAt s info path m fields ∧
      n.name ∈ enrolled s info parent here := by
  obtain ⟨hn, hmany, hattributes⟩ := mem_selectedMany.mp hn
  have hbare : bareAt? (path ++ [n.name]) ns = some n.bare := by
    rw [← bareAt?_belowAt, bareAt?_singleton, hforest.child?_of_mem hn, Option.map_some]
  obtain ⟨c, hc, hloads⟩ := hcarries.loads _ _ hbare (.inr hattributes)
  obtain ⟨parent', here, hmem, f, -, assoc, hjoins, hname⟩ := hasked.loads path n.name c hc hloads
  cases hparent.symm.trans (modelAt_of_mem_levelsAt hmem)
  obtain ⟨assoc', t, hf⟩ := (hforest.rooted n hn).exists_follow
  have hassoc : assoc' = assoc := Option.some.inj
    ((Schema.follow_eq_ok.mp hf).1.symm.trans (hname ▸ association?_of_asked hjoins.association))
  have hkind : assoc.kind.isMany = true := by
    rw [← hassoc, ← (hforest.rooted n hn).kind hf, hmany]
  exact ⟨here, hmem, hname ▸ hjoins.many hkind⟩

theorem length_flatMap_le {α β : Type} {as : List α} {g : α → List β} {bound : Nat}
    (h : ∀ a ∈ as, (g a).length ≤ bound) : (as.flatMap g).length ≤ bound * as.length := by
  induction as with
  | nil => simp
  | cons a as ih =>
    rw [List.forall_mem_cons] at h
    rw [List.flatMap_cons, List.length_append, List.length_cons, Nat.mul_succ]
    have := ih h.2
    omega

/-- Below the end of a path no more to-many associations select something than the selection sets
that are planned there have room for. -/
theorem length_selectedMany_belowAt_le (hm : s.model model = .ok m)
    (hfields : info.expand selections = .ok fields)
    (h : Include.plan s info model selections filter orders = .ok p) :
    (selectedMany (belowAt path p.includes)).length ≤
      s.options.maxMany * (levelsAt s info path m fields).length := by
  obtain ⟨level, hasked, hforest, hcarries, -⟩ := exists_level_of_plan hm hfields h
  by_cases hne : belowAt path p.includes = []
  · rw [hne]
    exact Nat.zero_le _
  obtain ⟨parent, hparent, hbelow⟩ := hforest.exists_belowAt hne
  have hnames : ((selectedMany (belowAt path p.includes)).map (·.name)).Nodup :=
    hbelow.names.sublist (List.filter_sublist.map _)
  have hsub : (selectedMany (belowAt path p.includes)).map (·.name) ⊆
      (levelsAt s info path m fields).flatMap fun (parent, here) =>
        enrolled s info parent here := by
    intro name hname
    obtain ⟨n, hn, rfl⟩ := List.mem_map.mp hname
    obtain ⟨here, hmem, henrolled⟩ := exists_enrolled hasked hcarries hbelow hparent hn
    exact List.mem_flatMap.mpr ⟨(parent, here), hmem, henrolled⟩
  calc (selectedMany (belowAt path p.includes)).length
      = ((selectedMany (belowAt path p.includes)).map (·.name)).length := (List.length_map _).symm
    _ ≤ ((levelsAt s info path m fields).flatMap fun (parent, here) =>
          enrolled s info parent here).length := (List.Nodup.subperm hnames hsub).length_le
    _ ≤ s.options.maxMany * (levelsAt s info path m fields).length :=
        length_flatMap_le fun _ _ => length_enrolled_le

/-- A planned tree joins at the root no more to-many associations that select something than there
is room for on one level. Deeper there is room for as many for each selection set that is planned
there. -/
theorem length_selectedMany_le (hm : s.model model = .ok m)
    (hfields : info.expand selections = .ok fields)
    (h : Include.plan s info model selections filter orders = .ok p) :
    (selectedMany p.includes).length ≤ s.options.maxMany ∧
      ∀ path, (selectedMany (belowAt path p.includes)).length ≤
        s.options.maxMany * (levelsAt s info path m fields).length := by
  refine ⟨?_, fun path => length_selectedMany_belowAt_le hm hfields h⟩
  have hroot : (selectedMany (belowAt [] p.includes)).length ≤
      s.options.maxMany * (levelsAt s info [] m fields).length :=
    length_selectedMany_belowAt_le hm hfields h
  rwa [levelsAt, List.length_singleton, Nat.mul_one] at hroot

/-! ### The customer of an order, twice -/

def contacts : Config where
  models := [
    { name := "Order"
      attributes := [{ name := "id", type := "INTEGER", primaryKey := true },
        { name := "customerId", type := "INTEGER" }]
      associations := [{
        kind := .belongsTo
        target := "Customer"
        foreignKey := "customerId" }] },
    { name := "Customer"
      attributes := [{ name := "id", type := "INTEGER", primaryKey := true }]
      associations := [
        { kind := .hasMany, target := "Order", foreignKey := "customerId" },
        { kind := .hasMany, target := "Note", foreignKey := "customerId" }] },
    { name := "Note"
      attributes := [{ name := "id", type := "INTEGER", primaryKey := true },
        { name := "customerId", type := "INTEGER" }] }]
  options := { maxMany := 1 }

def contactsSchema : Schema := ⟨contacts.models.map (·.resolve), contacts.options⟩

theorem build_contacts : Schema.build contacts = .ok contactsSchema := by decide

/-- The customer of an order, once with its orders and once with its notes. -/
def customerTwice : List Selection := [
  .field "customer" (some "a") [] [.field "orders" none [] [.field "id" none [] []]],
  .field "customer" (some "b") [] [.field "notes" none [] [.field "id" none [] []]]]

def customerTwiceFields : List Field := [
  ⟨"customer", some "a", [], [.field "orders" none [] [.field "id" none [] []]]⟩,
  ⟨"customer", some "b", [], [.field "notes" none [] [.field "id" none [] []]]⟩]

def customerTwicePlan : PartialPlan where
  model := "Order"
  attributes := ["customerId"]
  includes := [{
    target := "Customer"
    name := "customer"
    kind := .belongsTo
    attributes := ["id"]
    includes := [
      { target := "Order", name := "orders", kind := .hasMany, attributes := ["id"] },
      { target := "Note", name := "notes", kind := .hasMany, attributes := ["id"] }] }]

theorem plan_customerTwice :
    Include.plan contactsSchema {} "Order" customerTwice none [] = .ok customerTwicePlan := by
  rfl

/-- Two selection sets become the level of the customer. -/
theorem customerTwice_le : (selectedMany customerTwicePlan.includes).length ≤ 1 ∧
    ∀ path, ∃ m, contactsSchema.model "Order" = .ok m ∧
      (selectedMany (belowAt path customerTwicePlan.includes)).length ≤
        1 * (levelsAt contactsSchema {} path m customerTwiceFields).length := by
  have hfields : ExecutionInfo.expand {} customerTwice = .ok customerTwiceFields := rfl
  obtain ⟨hroot, hbelow⟩ := length_selectedMany_le rfl hfields plan_customerTwice
  exact ⟨hroot, fun path => ⟨_, rfl, hbelow path⟩⟩

/-- There is room for one to-many association on a level, and that of the customer joins two. -/
theorem customerTwice_exceeds : Schema.build contacts = .ok contactsSchema ∧
    contactsSchema.options.maxMany = 1 ∧
    Include.plan contactsSchema {} "Order" customerTwice none [] = .ok customerTwicePlan ∧
    (selectedMany (belowAt ["customer"] customerTwicePlan.includes)).length = 2 :=
  ⟨build_contacts, rfl, plan_customerTwice, rfl⟩

end RelQuery.Include

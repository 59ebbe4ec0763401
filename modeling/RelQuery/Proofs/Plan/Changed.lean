import RelQuery.Proofs.Document.Distinct
import RelQuery.Proofs.Filter.Local
import RelQuery.Proofs.Plan.MergeAssoc
import RelQuery.Proofs.Plan.Restricted
import RelQuery.Proofs.Schema.Sound

/-!
# Lists of changed rows

A subscription reads the rows that events name through its own list. The events only narrow the list
down: to what the filter of the list says, the keys of the changed rows are added as one comparison.
-/

namespace RelQuery

universe u

variable {s : Schema} {m : Model} {a : Attribute} {model primaryKey : String} {field : Field}
  {info : ExecutionInfo} {events : List Event} {id : Document} {ids : List Document} {f : Filter}
  {e : Event}

namespace Event

/-- An event names a row by its key, among its ids or as the key of an instance. -/
def Names (primaryKey : String) (e : Event) (id : Document) : Prop :=
  id ≠ .null ∧ (id ∈ e.ids ∨ ∃ i ∈ e.instances, i.get? primaryKey = some id)

/-- The keys by which events name rows of a model, each text once, in the order in which they are
first named: in an event the ids come before the keys of instances. -/
structure Changed (primaryKey model : String) (events : List Event) (ids : List Document) :
    Prop where
  named : ∀ id, id ∈ ids ↔ ∃ e ∈ events, e.model = model ∧ e.Names primaryKey id
  once : (ids.map Document.compact).Nodup
  firstSeen : ids.map Document.compact =
    (((events.filter (·.model == model)).flatMap fun e =>
      (e.ids ++ e.instances.filterMap (·.get? primaryKey)).filter (!·.isNull)).map
        Document.compact).eraseDups

theorem mem_keys : id ∈ e.keys primaryKey ↔ e.Names primaryKey id := by
  have hnull : (!id.isNull) = true ↔ id ≠ .null := by cases id <;> simp [Document.isNull]
  simp only [keys, Names, List.mem_filter, List.mem_append, List.mem_filterMap, hnull]
  exact and_comm

/-- The changed keys are those that events name. -/
theorem changed_changedIds (hm : s.model model = .ok m) (events : List Event) :
    ∃ ids, changedIds s model events = .ok ids ∧ Changed m.primaryKey model events ids := by
  have hids : changedIds s model events = .ok (Document.distinctByText
      ((events.filter (·.model == model)).flatMap (keys m.primaryKey))) := by
    rw [changedIds, hm]
    rfl
  refine ⟨_, hids, fun id => ?_, ?_, Document.map_compact_distinctByText _⟩
  · simp only [Document.mem_distinctByText, List.mem_flatMap, List.mem_filter, mem_keys,
      beq_iff_eq, and_assoc]
  · rw [Document.map_compact_distinctByText]
    exact nodup_eraseDups _

/-- So the events determine the keys and their order. -/
theorem Changed.unique {ids' : List Document} (h : Changed primaryKey model events ids)
    (h' : Changed primaryKey model events ids') : ids = ids' :=
  List.map_injective_iff.mpr (fun _ _ => Document.compact_injective)
    (h.firstSeen.trans h'.firstSeen.symm)

/-- Nothing is read again exactly if no event names a row of the model. -/
theorem changedList_eq_none (hm : s.model model = .ok m) :
    changedList s model field info events = .ok none ↔
      ∀ e ∈ events, e.model = model → ∀ id, ¬e.Names m.primaryKey id := by
  obtain ⟨ids, hids, hchanged⟩ := changed_changedIds hm events
  have hempty : ids.isEmpty = true ↔
      ∀ e ∈ events, e.model = model → ∀ id, ¬e.Names m.primaryKey id := by
    rw [List.isEmpty_iff, List.eq_nil_iff_forall_not_mem]
    constructor
    · intro h e he hmodel id hid
      exact h id ((hchanged.named id).mpr ⟨e, he, hmodel, hid⟩)
    · intro h id hid
      obtain ⟨e, he, hmodel, hid⟩ := (hchanged.named id).mp hid
      exact h e he hmodel id hid
  rw [← hempty, changedList, hids, ok_bind]
  constructor
  · intro h
    split at h
    · assumption
    · obtain ⟨m, -, h⟩ := bind_eq_ok.mp h
      obtain ⟨f, -, h⟩ := bind_eq_ok.mp h
      obtain ⟨q, -, h⟩ := bind_eq_ok.mp h
      cases h
  · intro h
    rw [if_pos h]
    rfl

end Event

/-! ## The comparison with the keys -/

namespace Query

/-- The comparison of an attribute with a list of keys. -/
def keyAmong (a : Attribute) (keys : List Document) : Comparison where
  path := ⟨[], a.name, []⟩
  operator := .isIn
  operand := .plain (.arr keys)
  type := some a.type
  negated := false

theorem keyAmong_of_leaf (hstored : a.computed = none)
    (h : Filter.leaf s ((Filter.Scope.root m).atAttribute a) .isIn (.arr ids) = .ok f) :
    ∃ keys, ids.mapM (Operand.scalar a.type · a.name) = .ok keys ∧
      f = .comparison (keyAmong a keys) := by
  have hop : Operand.testForNull .isIn (.arr ids) = .isIn := rfl
  simp only [Filter.leaf, Filter.Scope.atAttribute, hop, hstored] at h
  obtain ⟨_, -, h⟩ := bind_eq_ok.mp h
  obtain ⟨o, ho, h⟩ := bind_eq_ok.mp h
  cases h
  obtain ⟨keys, hkeys, ho⟩ := bind_eq_ok.mp ho
  cases ho
  exact ⟨keys, hkeys, rfl⟩

/-- Keys under the name of a stored attribute compile to one comparison. -/
theorem keyAmong_of_compile {name : String} (hm : s.model model = .ok m)
    (ha : m.attribute? name = some a) (hstored : a.computed = none)
    (h : Filter.compile s model (.obj [(name, .obj [("_inOp", .arr ids)])]) = .ok f) :
    ∃ keys, ids.mapM (Operand.scalar a.type · a.name) = .ok keys ∧
      f = .comparison (keyAmong a keys) := by
  obtain ⟨f, hf, rfl⟩ := Filter.compile_attribute hm (Filter.operatorName?_of_compile hm h)
    (Filter.ne_expressionKey_of_compile hm h) ha h
  obtain ⟨g, hg, rfl⟩ := Filter.compileValue_entry hf
  obtain ⟨r, hr, hg⟩ := bind_eq_ok.mp hg
  have hrole : Filter.role s ((Filter.Scope.root m).atAttribute a) "_inOp" (.arr ids) =
      .ok (.operator .isIn) := rfl
  cases hrole.symm.trans hr
  obtain ⟨keys, hkeys, rfl⟩ := keyAmong_of_leaf hstored hg
  exact ⟨keys, hkeys, rfl⟩

end Query

/-! ## The list -/

/-- A subscription reads nothing again exactly if no event names a row of its model. Else it reads
its own list, and the filter says what that of the list says, and that the primary key is one of
those that events name. -/
theorem Event.changedList_narrows {c : Config} (hs : Schema.build c = .ok s)
    (hm : s.model model = .ok m) :
    (changedList s model field info events = .ok none ↔
      ∀ e ∈ events, e.model = model → ∀ id, ¬e.Names m.primaryKey id) ∧
    ∀ p, changedList s model field info events = .ok (some p) →
      ∃ q a ids keys, Query.rootList s model field info = .ok q ∧
        p = { q with filter := p.filter } ∧ m.attribute? m.primaryKey = some a ∧
        Changed m.primaryKey model events ids ∧
        ids.mapM (Operand.scalar a.type · a.name) = .ok keys ∧
        ∀ {α : Type u} [Lattice α] [BoundedOrder α] [Compl α] (v : Valuation α),
          Filter.evalOption v p.filter =
            Filter.evalOption v q.filter ⊓ v.comparison (Query.keyAmong a keys) := by
  refine ⟨changedList_eq_none hm, fun p h => ?_⟩
  obtain ⟨ids, n, e, q, hids, hn, he, hq, rfl⟩ := changedList_eq_ok h
  cases hm.symm.trans hn
  obtain ⟨ids', hids', hchanged⟩ := changed_changedIds hm events
  cases hids.symm.trans hids'
  obtain ⟨a, ha, hstored⟩ := Schema.primaryKey_of_build hs (Schema.mem_of_model hm)
  obtain ⟨keys, hkeys, rfl⟩ := Query.keyAmong_of_compile hm ha hstored he
  exact ⟨q, a, ids, keys, hq, rfl, ha, hchanged, hkeys, fun v => Query.evalOption_restrict⟩

/-! ### Orders that have changed -/

namespace Event

def eight : Document := .num (.int 8 (by decide) (by decide))

def nine : Document := .num (.int 9 (by decide) (by decide))

def orderId : Attribute := ⟨"id", "id", .integer, false, true, none⟩

def order : Model :=
  ⟨"Order", "orders", [orderId, ⟨"status", "status", .string, true, false, none⟩], []⟩

/-- Order 8 has changed, under two texts, and so have order 9 and a customer. -/
def changes : List Event := [
  { model := "Order", ids := [eight, .null, .str "8"] },
  { model := "Customer", ids := [nine] },
  { model := "Order", ids := [eight],
    instances := [.obj [("id", nine)], .obj [("status", .str "paid")]] }]

theorem changedIds_changes :
    changedIds ordersSchema "Order" changes = .ok [eight, .str "8", nine] := by
  rfl

/-- The subscription is to orders that are not void. -/
def notVoid : ExecutionInfo where
  bindings := [("condition", refusal "void")]

def changesPlan : Plan :=
  ordersPlan (.logical .and
    [isNot "void", .comparison (Query.keyAmong orderId [eight, eight, nine])])

theorem changedList_changes :
    changedList ordersSchema "Order" ordersWhere notVoid changes = .ok (some changesPlan) := by
  have hkeys : Filter.compile ordersSchema "Order"
      (.obj [("id", .obj [("_inOp", .arr [eight, .str "8", nine])])]) =
        .ok (.comparison (Query.keyAmong orderId [eight, eight, nine])) := by
    simp only [Filter.compile, Filter.compileValue, Filter.compileFields]
    rfl
  change (do
    let f ← Filter.compile ordersSchema "Order"
      (.obj [("id", .obj [("_inOp", .arr [eight, .str "8", nine])])])
    return some (Query.restrict (← Query.rootList ordersSchema "Order" ordersWhere notVoid) f)) = _
  rw [hkeys, notVoid, rootList_refusal]
  rfl

/-- Nothing is read again for a customer alone. For all changes, the orders are read that are not
void and whose key is 8 or 9. -/
theorem changes_narrow : Schema.build orders = .ok ordersSchema ∧
    changedList ordersSchema "Order" ordersWhere notVoid changes = .ok (some changesPlan) ∧
    changedList ordersSchema "Order" ordersWhere notVoid [{ model := "Customer", ids := [nine] }] =
      .ok none ∧
    ∀ v : Valuation Kleene, Filter.evalOption v changesPlan.filter =
      ((isNot "void").eval v ⊓ v.comparison (Query.keyAmong orderId [eight, eight, nine])) := by
  have hbuild : Schema.build orders = .ok ordersSchema := by decide
  have hm : ordersSchema.model "Order" = .ok order := rfl
  refine ⟨hbuild, changedList_changes, (changedList_narrows.{0} hbuild hm).1.mpr ?_, fun v => ?_⟩
  · simp
  · obtain ⟨q, a, ids, keys, hq, -, ha, hchanged, hkeys, hvalue⟩ :=
      (changedList_narrows.{0} hbuild hm).2 _ changedList_changes
    obtain ⟨ids', hids', hchanged'⟩ := changed_changedIds hm changes
    cases changedIds_changes.symm.trans hids'
    cases hchanged.unique hchanged'
    cases (rootList_refusal "void").symm.trans hq
    have hid : order.attribute? order.primaryKey = some orderId := rfl
    cases hid.symm.trans ha
    have hread : [eight, .str "8", nine].mapM (Operand.scalar orderId.type · orderId.name) =
      .ok [eight, eight, nine] := rfl
    cases hread.symm.trans hkeys
    exact hvalue v

end Event

end RelQuery

import RelQuery.Proofs.Plan.MergeSelf

/-!
# Merging in the other order

Nodes at one path of two forests stand for one association. So the merges of two plans have the same
nodes at the same paths whichever plan comes first, and they are alike.
-/

namespace RelQuery

theorem Filter.equivalent_merge?_comm (a? b? : Option Filter) :
    Equivalent (merge? a? b?) (merge? b? a?) := by
  intro α _ _ _ v
  cases a? with
  | none => cases b? <;> rfl
  | some a =>
    cases b? with
    | none => rfl
    | some b => rw [evalOption_some_merge?, evalOption_some_merge?, mergedValue_comm]

variable {s : Schema} {Q Q' : Model → Filter → Prop} {m n : Model}

namespace Include

variable {a b : Include} {ns bs : List Include} {hops : List String}

theorem sameNode_mergeBare_comm {parent : Model} (ha : a.Rooted s Q parent)
    (hb : b.Rooted s Q' parent) (hname : a.name = b.name) (h : SamePage a b) :
    SameNode (mergeBare a.bare b.bare) (mergeBare b.bare a.bare) := by
  obtain ⟨assoc, t, hf⟩ := ha.exists_follow
  have hf' := hname ▸ hf
  exact {
    target := (ha.target hf).trans (hb.target hf').symm
    name := hname
    kind := (ha.kind hf).trans (hb.kind hf').symm
    attributes := fun x => by
      simp only [mergeBare, mem_foldl_addName]
      exact or_comm
    filter := Filter.equivalent_merge?_comm _ _
    required := Bool.and_comm _ _
    limit := h.limit.or_comm
    offset := h.offset.or_comm
    separate := Bool.or_comm _ _ }

/-- The merges of two forests have the same nodes at the same paths. -/
theorem rel_merge_comm (hns : Forest s Q m ns) (hbs : Forest s Q' m bs) (h : SamePages ns bs) :
    Option.Rel SameNode (Option.merge mergeBare (bareAt? hops ns) (bareAt? hops bs))
      (Option.merge mergeBare (bareAt? hops bs) (bareAt? hops ns)) := by
  have hpage := h hops
  unfold bareAt? at hpage ⊢
  cases ha : nodeAt? hops ns with
  | none =>
    cases nodeAt? hops bs with
    | none => exact .none
    | some b => exact .some (.refl _)
  | some a =>
    cases hb : nodeAt? hops bs with
    | none => exact .some (.refl _)
    | some b =>
      obtain ⟨parent, hra, hrb, hname⟩ := rooted_of_nodeAt? hns hbs ha hb
      rw [ha, hb] at hpage
      exact .some (sameNode_mergeBare_comm hra hrb hname (hpage a.bare b.bare rfl rfl).of_bare)

end Include

namespace Plan

variable {a b p q : Plan}

theorem alike_of_merge_comm (ha : a.Regular s Q m) (hb : b.Regular s Q m)
    (hp : p.Regular s Q m) (hq : q.Regular s Q m) (hab : merge a b = .ok p)
    (hba : merge b a = .ok q) : Alike p q := by
  have hcompat := mergeable_of_merge ha hb hab
  obtain ⟨includes, h⟩ := mergeOf_of_merge hab
  obtain ⟨includes', h'⟩ := mergeOf_of_merge hba
  have hneg : ∀ hops, hops ∈ Filter.negatedPaths p.filter ↔
      hops ∈ Filter.negatedPaths q.filter := by
    intro hops
    rw [h.filter, h'.filter, Filter.mem_negatedPaths_merge?, Filter.mem_negatedPaths_merge?]
    exact or_comm
  refine {
    model := h.model.trans (hcompat.model.trans h'.model.symm)
    attributes := fun item => ?_
    includes := Include.allAlike_of_sameNodes hp.includes hq.includes fun hops => ?_
    filter := ?_
    group := given?_injective (h.group.trans (hcompat.group.or_comm.trans h'.group.symm))
    order := given?_injective (h.order.trans (hcompat.order.or_comm.trans h'.order.symm))
    limit := h.limit.trans (hcompat.limit.or_comm.trans h'.limit.symm)
    offset := h.offset.trans (hcompat.offset.or_comm.trans h'.offset.symm) }
  · rw [h.attributes, h'.attributes, mem_foldl_addItem, mem_foldl_addItem]
    exact or_comm
  · rw [h.bareAt?_includes ha hb, h'.bareAt?_includes hb ha]
    exact Include.rel_mark (Include.rel_merge_comm ha.includes hb.includes hcompat.includes)
      (any_congr_of_mem_iff hneg)
  · rw [h.filter, h'.filter]
    exact Filter.equivalent_merge?_comm _ _

theorem exists_merge_comm (ha : a.Regular s Q m) (hb : b.Regular s Q' n) :
    (∃ p, merge a b = .ok p) ↔ ∃ q, merge b a = .ok q := by
  rw [exists_merge_iff ha hb, exists_merge_iff hb ha]
  exact ⟨Mergeable.symm, Mergeable.symm⟩

/-- Two plans merge in both orders or in none, and into plans that are alike. A plan merges with
itself into one that merging with itself does not change, and into itself if no key of an
association is read as an operator. -/
theorem merge_laws {c : Config} (hs : Schema.build c = .ok s) (ha : Planned s a)
    (hb : Planned s b) : (s.PlainKeys → merge a a = .ok a) ∧
      (∃ p, merge a a = .ok p ∧ merge p p = .ok p) ∧
      ((∃ p, merge a b = .ok p) ↔ ∃ q, merge b a = .ok q) ∧
      ∀ p q, merge a b = .ok p → merge b a = .ok q → Alike p q := by
  have hclosed := Include.filterClosed_true s
  obtain ⟨m, hra⟩ := ha.regular hclosed
  obtain ⟨n, hrb⟩ := hb.regular hclosed
  refine ⟨fun hkeys => (ha.settled hs hkeys).merge_self hra, ?_, exists_merge_comm hra hrb, ?_⟩
  · obtain ⟨p, hp⟩ := (mergeable_self a).exists_merge hra hra
    exact ⟨p, hp, (settled_of_merge hp).merge_self (hra.merge hclosed hp hra)⟩
  · intro p q hp hq
    have hcompat := mergeable_of_merge hra hrb hp
    cases (hcompat.model ▸ hra.model).symm.trans hrb.model
    exact alike_of_merge_comm hra hrb (hra.merge hclosed hp hrb) (hrb.merge hclosed hq hra) hp hq

end Plan

/-! ### Authors with all their books -/

def allBooks : Field where
  name := "authors"
  selections := [.field "books" none [] [.field "id" none [] []]]

def allBooksPlan : Plan where
  model := "Author"
  attributes := [.column "id"]
  includes := [{ target := "Book", name := "books", kind := .hasMany, attributes := ["id"] }]

theorem rootList_allBooks :
    Query.rootList librarySchema "Author" allBooks {} = .ok allBooksPlan := by
  rfl

theorem authorPlan_merge_laws : Plan.merge authorPlan authorPlan = .ok authorPlan ∧
    ∃ p q, Plan.merge authorPlan allBooksPlan = .ok p ∧ Plan.merge allBooksPlan authorPlan = .ok q ∧
      Plan.Alike p q := by
  obtain ⟨hself, -, -, hcomm⟩ := Plan.merge_laws build_library
    (.rootList rootList_authors) (.rootList rootList_allBooks)
  exact ⟨hself (by decide), _, _, rfl, rfl, hcomm _ _ rfl rfl⟩

/-! ### A key that is read as an operator -/

def lineage : Config where
  models := [
    { name := "Parent"
      attributes := [{ name := "id", type := "INTEGER", primaryKey := true },
        { name := "ref", type := "JSONB" }]
      associations := [{
        kind := .hasMany
        target := "Child"
        declaredName := some "children"
        foreignKey := "_andOp"
        targetKey := some "ref" }] },
    { name := "Child"
      attributes := [{ name := "id", type := "INTEGER", primaryKey := true },
        { name := "_andOp", type := "JSONB" }, { name := "otherId", type := "INTEGER" }]
      associations := [{
        kind := .belongsTo
        target := "Other"
        declaredName := some "other"
        foreignKey := "otherId" }] },
    { name := "Other"
      attributes := [{ name := "id", type := "INTEGER", primaryKey := true }] }]

def lineageSchema : Schema := ⟨lineage.models.map (·.resolve), lineage.options⟩

def five : Document := .num (.int 5 (by decide) (by decide))

def children : Field where
  name := "children"
  selections := [.field "other" none [] [.field "id" none [] []]]

def reference : Document := .obj [("other!!id", five)]

def otherThanFive : Filter :=
  .comparison ⟨⟨["other"], "id", []⟩, .eq, .plain five, some .integer, true⟩

def childrenPlan : Plan where
  model := "Child"
  attributes := [.column "otherId", .column "id"]
  includes := [{ target := "Other", name := "other", kind := .belongsTo, attributes := ["id"] }]
  filter := some otherThanFive

theorem compile_reference :
    Filter.compile lineageSchema "Child" (.obj [("_andOp", reference)]) = .ok otherThanFive := by
  simp only [reference, Filter.compile, Filter.compileValue, Filter.compileFields]
  rfl

theorem associationList_children : Query.associationList lineageSchema "Parent" children
    (.obj [("id", five), ("ref", reference)]) {} = .ok childrenPlan := by
  change (do
    let condition ← Filter.compile lineageSchema "Child" (.obj [("_andOp", reference)])
    return Query.restrict { childrenPlan with filter := none } condition) = _
  rw [compile_reference]
  rfl

/-- The key of a row is read as a condition on another model, whose node the list does not mark and
a merge does. -/
theorem merge_childrenPlan : Schema.build lineage = .ok lineageSchema ∧
    Plan.Planned lineageSchema childrenPlan ∧
    Plan.merge childrenPlan childrenPlan ≠ .ok childrenPlan := by
  refine ⟨by decide, .associationList associationList_children, fun h => ?_⟩
  have hrequired := congrArg (Except.map fun p : Plan => p.includes.map Include.required) h
  have hboth : [true] = [false] := Except.ok.inj hrequired
  exact absurd hboth (by decide)

end RelQuery

import RelQuery.Proofs.Include.Alike
import RelQuery.Proofs.Plan.Regular

/-!
# What a merge of plans is

Two plans merge exactly if they are on one model and no modifier that both give differs, at the top
or at any path of their includes. The merge has at each path the merge of what its sides have there,
an inner join if a negated path of its filter runs through it.
-/

namespace RelQuery

/-! ## Lists of names and items -/

theorem any_congr_of_mem_iff {α : Type} {as bs : List α} {test : α → Bool}
    (h : ∀ x, x ∈ as ↔ x ∈ bs) : as.any test = bs.any test := by
  rw [Bool.eq_iff_iff, List.any_eq_true, List.any_eq_true]
  simp only [h]

namespace Plan

theorem mem_addItem {items : List SelectItem} {item x : SelectItem} :
    x ∈ addItem items item ↔ x ∈ items ∨ x = item := by
  unfold addItem
  split
  · rename_i h
    exact ⟨.inl, fun hx => hx.elim id fun hx => hx ▸ h⟩
  · simp

theorem mem_foldl_addItem {items more : List SelectItem} {x : SelectItem} :
    x ∈ more.foldl addItem items ↔ x ∈ items ∨ x ∈ more := by
  induction more generalizing items with
  | nil => simp
  | cons item more ih => rw [List.foldl_cons, ih, mem_addItem, List.mem_cons, or_assoc]

/-! ## Lists that are given -/

theorem getD_given? {α : Type} (as : List α) : (given? as).getD [] = as := by
  cases as <;> rfl

/-- The list that one side gives is given in the merge. -/
theorem given?_getD_or {α : Type} (as bs : List α) :
    given? (((given? as).or (given? bs)).getD []) = (given? as).or (given? bs) := by
  cases as <;> cases bs <;> rfl

/-! ## Plans that merge -/

/-- Two plans are on one model and no modifier that both give differs. -/
structure Mergeable (a b : Plan) : Prop where
  model : a.model = b.model
  includes : Include.SamePages a.includes b.includes
  group : Compatible (given? a.group) (given? b.group)
  order : Compatible (given? a.order) (given? b.order)
  limit : Compatible a.limit b.limit
  offset : Compatible a.offset b.offset

variable {s : Schema} {Q Q' : Model → Filter → Prop} {m n : Model} {a b p : Plan}
  {hops : List String}

theorem Mergeable.symm (h : Mergeable a b) : Mergeable b a where
  model := h.model.symm
  includes hops y x hy hx :=
    ⟨(h.includes hops x y hx hy).limit.symm, (h.includes hops x y hx hy).offset.symm⟩
  group := h.group.symm
  order := h.order.symm
  limit := h.limit.symm
  offset := h.offset.symm

theorem mergeable_self (a : Plan) : Mergeable a a where
  model := rfl
  includes _ _ _ hx hy := Option.some.inj (hx.symm.trans hy) ▸ ⟨compatible_self, compatible_self⟩
  group := compatible_self
  order := compatible_self
  limit := compatible_self
  offset := compatible_self

/-- The merge of two plans, given that of their includes. -/
structure MergeOf (a b p : Plan) (includes : List Include) : Prop where
  model : p.model = a.model
  attributes : p.attributes = b.attributes.foldl addItem a.attributes
  filter : p.filter = Filter.merge? a.filter b.filter
  merged : Include.mergeAll a.includes b.includes = .ok includes
  includes : p.includes = Include.requireAll (Filter.negatedPaths p.filter) includes
  group : given? p.group = (given? a.group).or (given? b.group)
  order : given? p.order = (given? a.order).or (given? b.order)
  limit : p.limit = a.limit.or b.limit
  offset : p.offset = a.offset.or b.offset

theorem mergeOf_of_merge (h : merge a b = .ok p) : ∃ includes, MergeOf a b p includes := by
  obtain ⟨-, includes, group, order, limit, offset, hi, hgroup, horder, hlimit, hoffset, rfl⟩ :=
    merge_eq_ok h
  obtain ⟨-, rfl⟩ := agree_eq_ok.mp hgroup
  obtain ⟨-, rfl⟩ := agree_eq_ok.mp horder
  obtain ⟨-, rfl⟩ := agree_eq_ok.mp hlimit
  obtain ⟨-, rfl⟩ := agree_eq_ok.mp hoffset
  exact ⟨includes, rfl, rfl, rfl, hi, requireNegated_eq, given?_getD_or _ _, given?_getD_or _ _,
    rfl, rfl⟩

theorem mergeable_of_merge (ha : a.Regular s Q m) (hb : b.Regular s Q' n)
    (h : merge a b = .ok p) : Mergeable a b := by
  obtain ⟨hmodel, includes, group, order, limit, offset, hi, hgroup, horder, hlimit, hoffset, -⟩ :=
    merge_eq_ok h
  cases (hmodel ▸ ha.model).symm.trans hb.model
  exact ⟨hmodel, Include.samePages_of_mergeAll ha.includes hb.includes hi,
    (agree_eq_ok.mp hgroup).1, (agree_eq_ok.mp horder).1, (agree_eq_ok.mp hlimit).1,
    (agree_eq_ok.mp hoffset).1⟩

theorem Mergeable.exists_merge (h : Mergeable a b) (ha : a.Regular s Q m)
    (hb : b.Regular s Q' n) : ∃ p, merge a b = .ok p := by
  cases (h.model ▸ ha.model).symm.trans hb.model
  obtain ⟨includes, hi⟩ :=
    (Include.exists_mergeAll_iff ha.includes hb.includes).mpr h.includes
  unfold merge
  rw [if_neg (not_not.mpr h.model), hi, agree_eq_ok.mpr ⟨h.group, rfl⟩,
    agree_eq_ok.mpr ⟨h.order, rfl⟩, agree_eq_ok.mpr ⟨h.limit, rfl⟩, agree_eq_ok.mpr ⟨h.offset, rfl⟩]
  exact ⟨_, rfl⟩

/-- Regular plans merge exactly if nothing that both give differs. -/
theorem exists_merge_iff (ha : a.Regular s Q m) (hb : b.Regular s Q' n) :
    (∃ p, merge a b = .ok p) ↔ Mergeable a b :=
  ⟨fun ⟨_, h⟩ => mergeable_of_merge ha hb h, fun h => h.exists_merge ha hb⟩

/-- The node of a merge at a path. -/
theorem MergeOf.bareAt?_includes {includes : List Include} (h : MergeOf a b p includes)
    (ha : a.Regular s Q m) (hb : b.Regular s Q' m) : Include.bareAt? hops p.includes =
      (Option.merge Include.mergeBare (Include.bareAt? hops a.includes)
        (Include.bareAt? hops b.includes)).map
          (Include.mark ((Filter.negatedPaths p.filter).any hops.isPrefixOf)) := by
  rw [h.includes, Include.bareAt?_requireAll,
    Include.bareAt?_mergeAll ha.includes hb.includes h.merged]

/-- Two plans are the same up to the order of attributes and of sibling includes, and up to filters
that are logically equivalent. -/
structure Alike (p q : Plan) : Prop where
  model : p.model = q.model
  attributes : ∀ item, item ∈ p.attributes ↔ item ∈ q.attributes
  includes : Include.AllAlike p.includes q.includes
  filter : Filter.Equivalent p.filter q.filter
  group : p.group = q.group
  order : p.order = q.order
  limit : p.limit = q.limit
  offset : p.offset = q.offset

theorem given?_injective {α : Type} {as bs : List α} (h : given? as = given? bs) : as = bs := by
  rw [← getD_given? as, h, getD_given?]

end Plan

end RelQuery

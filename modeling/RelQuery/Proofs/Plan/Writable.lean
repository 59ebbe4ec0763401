import RelQuery.Events
import RelQuery.Proofs.Include.Planner
import RelQuery.Proofs.Plan.Compose

/-!
# Plans that can be written

A plan can be written if its model has the attributes it selects, its filter has a condition, and so
have its includes. All plans of queries and of change events are of that kind, and merges keep it,
so no statement is refused except for the page of a separate include.
-/

namespace RelQuery

/-! ## Select items -/

/-- Whether a model has the attribute of an item. -/
def SelectItem.Within (m : Model) : SelectItem → Prop
  | .column name => name ∈ m.attributeNames
  | .aggregate _ attr _ => attr ∈ m.attributeNames
  | .count => True

namespace SelectItem.Within

variable {m : Model} {item : SelectItem} {items : List SelectItem}

theorem exists_sql (h : item.Within m) (table : String) : ∃ sql, item.sql m table = .ok sql := by
  cases item with
  | column name =>
    obtain ⟨a, ha⟩ := Model.exists_requireAttribute h
    exact ⟨Sql.named (a.selected m table) name, by simp [SelectItem.sql, ha]⟩
  | aggregate func attr output =>
    obtain ⟨a, ha⟩ := Model.exists_requireAttribute h
    simp [SelectItem.sql, ha, bind, Except.bind, pure, Except.pure]
  | count => exact ⟨_, rfl⟩

theorem addItem (hs : ∀ i ∈ items, i.Within m) (h : item.Within m) :
    ∀ i ∈ Plan.addItem items item, i.Within m := by
  unfold Plan.addItem
  split
  · exact hs
  · exact List.forall_mem_append.mpr ⟨hs, List.forall_mem_singleton.mpr h⟩

theorem foldl_addItem {more : List SelectItem} (hs : ∀ i ∈ items, i.Within m)
    (hm : ∀ i ∈ more, i.Within m) : ∀ i ∈ more.foldl Plan.addItem items, i.Within m := by
  induction more generalizing items with
  | nil => exact hs
  | cons i more ih =>
    rw [List.forall_mem_cons] at hm
    exact ih (addItem hs hm.1) hm.2

end SelectItem.Within

namespace Plan

/-- Whether a plan on `m` can be written. -/
structure Writable (s : Schema) (m : Model) (p : Plan) : Prop where
  model : s.model p.model = .ok m
  items : ∀ item ∈ p.attributes, item.Within m
  includes : ∀ n ∈ p.includes, n.Writable s m
  filter : ∀ f, p.filter = some f → f.Writable s m

variable {s : Schema} {m : Model} {p a b : Plan} {selection : PartialPlan} {filter : Option Filter}
  {args : Arguments}

theorem Writable.exists_statement (h : p.Writable s m) : ∃ st, p.statement s = .ok st := by
  obtain ⟨items, hitems⟩ := exists_mapM fun i hi => (h.items i hi).exists_sql m.name
  obtain ⟨below, hbelow⟩ := Include.exists_columnsAll fun n hn =>
    (h.includes n hn).exists_columns m.name ""
  obtain ⟨joins, hjoins⟩ := Include.exists_joinsAll fun n hn =>
    (h.includes n hn).exists_joins m.name
  unfold statement select
  simp only [h.model, ok_bind, hitems, hbelow, hjoins]
  cases hf : p.filter with
  | none => cases p.isCount <;> simp
  | some f =>
    obtain ⟨c, hc⟩ := (h.filter f hf).exists_condition m.name
    cases p.isCount <;> simp [hc]

/-! ## Composed plans -/

theorem within_plainItems {attributes : List String} (h : attributes ⊆ m.attributeNames) :
    ∀ i ∈ plainItems m attributes, i.Within m := by
  refine .foldl_addItem nofun fun i hi => ?_
  obtain ⟨name, hname, rfl⟩ := List.mem_map.mp hi
  exact List.append_subset.mpr ⟨h, Model.primaryKeys_subset⟩ hname

theorem within_aggregate? {name : String} {i : SelectItem} (h : aggregate? m args name = some i) :
    i.Within m := by
  unfold aggregate? at h
  split at h
  · cases h
  · split at h
    · cases h
    · rename_i a ha
      split at h
      · cases h
      · cases h
        exact Model.name_mem_of_attribute? ha

theorem within_groupedItems {requested : List String} {items : List SelectItem}
    (h : groupedItems m requested args = .ok items) : ∀ i ∈ items, i.Within m := by
  obtain ⟨keys, hkeys, h⟩ := bind_eq_ok.mp h
  obtain ⟨_, -, h⟩ := bind_eq_ok.mp h
  cases h
  refine .foldl_addItem nofun (List.forall_mem_append.mpr ⟨fun i hi => ?_, fun i hi => ?_⟩)
  · obtain ⟨key, -, hkey⟩ := mem_of_mapM hkeys hi
    obtain ⟨a, ha, h⟩ := bind_eq_ok.mp hkey
    have ha := Model.requireAttribute_eq_ok.mp ha
    split at h
    · cases h
    · cases h
      exact Model.name_mem_of_attribute? ha
  · obtain ⟨name, -, hname⟩ := List.mem_filterMap.mp hi
    exact within_aggregate? hname

theorem writable_attachOrders {orders : List (String × Direction)} {entries : List OrderEntry}
    {ns ns' : List Include} (h : attachOrders s m orders ns = .ok (entries, ns'))
    (hns : ∀ n ∈ ns, n.Writable s m) : ∀ n ∈ ns', n.Writable s m :=
  attachOrders_preserves (P := fun ns => ∀ n ∈ ns, n.Writable s m)
    (fun _ _ _ _ hns h => .ensurePath h hns) h hns

/-- A composition of what can be written can be written. -/
theorem Writable.compose (h : compose s selection filter args = .ok p)
    (hsel : selection.Writable s m) (hfilter : ∀ f, filter = some f → f.Writable s m) :
    p.Writable s m := by
  obtain ⟨c⟩ := composition h
  obtain ⟨n, filtered, order, ordered, attributes, lowered, includes, hm, hfiltered, hordered,
    hattributes, hlowered, hincludes, rfl⟩ := c
  cases hsel.model.symm.trans hm
  have hstart : ∀ n ∈ startNodes selection args, n.Writable s m := by
    unfold startNodes
    split
    · exact List.forall_mem_nil _
    · exact hsel.includes
  have hfiltered : ∀ n ∈ filtered, n.Writable s m := by
    cases filter with
    | none =>
      cases hfiltered
      exact hstart
    | some f => exact .attachFilter hfiltered hstart
  have hpage : ∀ n ∈ pageNodes filter args order ordered, n.Writable s m := by
    have hordered := writable_attachOrders hordered hfiltered
    unfold pageNodes
    split
    · rw [Include.splitPageAll_eq_map]
      intro n hn
      obtain ⟨n, hn', rfl⟩ := List.mem_map.mp hn
      exact (hordered n hn').splitPage
    · exact hordered
  refine ⟨Schema.model_name hm, ?_, fun n hn => ?_, fun f hf => ?_⟩
  · split at hattributes
    · exact within_groupedItems hattributes
    · cases hattributes
      exact within_plainItems hsel.attributes
  · rw [Include.lowerAll_eq_mapM] at hincludes
    obtain ⟨n', hn', h⟩ := mem_of_mapM hincludes hn
    exact .lower h (hpage n' hn')
  · cases filter with
    | none =>
      cases hlowered
      cases hf
    | some f' =>
      obtain ⟨g, hg, rfl⟩ := map_eq_ok.mp hlowered
      cases Filter.proper?_eq_some hf
      exact (hfilter f' rfl).lower hg

end Plan

end RelQuery

import RelQuery.Events
import RelQuery.Proofs.Filter.Flat

/-!
# Restricted lists

The list behind an association of one row and the list of changed rows are lists of a model with one
more condition. Whatever else the list asks for, its filter then says the condition too: it is a
conjunct of the filter, and the filter is true of no row of which it is not.
-/

namespace RelQuery

universe u

variable {s : Schema} {p q : Plan} {f : Filter} {model : String} {field : Field} {row : Document}
  {info : ExecutionInfo}

namespace Query

variable {α : Type u} [Lattice α] [BoundedOrder α] [Compl α] {v : Valuation α}

/-- A condition narrows what the filter of a plan says. -/
theorem evalOption_restrict :
    Filter.evalOption v (restrict p f).filter = Filter.evalOption v p.filter ⊓ f.eval v := by
  change (Filter.all (p.filter.toList ++ [f])).eval v = _
  rw [Filter.eval_all, List.map_append, Connective.fold_append]
  cases p.filter <;> simp [Filter.evalOption, Connective.apply, Connective.unit]

/-- A condition that is no conjunction itself is a conjunct of the filter, up to equality. -/
theorem exists_conjunct_restrict (hf : f.connective? ≠ some .and) :
    ∃ g, (restrict p f).filter = some g ∧ ∃ h ∈ g.conjuncts, Filter.same f h = true := by
  have hmem : f ∈ p.filter.toList ++ [f] := List.mem_append_right _ (List.mem_singleton_self f)
  exact ⟨_, rfl, Filter.exists_same_conjuncts_all hmem hf⟩

/-- The list behind an association of a row is the list of the target, restricted by a correlation
with the key of the row. -/
theorem associationList_eq_ok (h : associationList s model field row info = .ok p) :
    ∃ parent assoc t key e q, s.model model = .ok parent ∧
      requireField parent field.name = .ok assoc ∧ s.targetOf assoc = .ok t ∧
      parentKeyOf parent assoc field.name row = .ok key ∧ correlation s assoc t key = .ok e ∧
      rootList s t.name field info = .ok q ∧ p = restrict q e := by
  obtain ⟨parent, hparent, h⟩ := bind_eq_ok.mp h
  obtain ⟨assoc, hassoc, h⟩ := bind_eq_ok.mp h
  obtain ⟨t, ht, h⟩ := bind_eq_ok.mp h
  obtain ⟨key, hkey, h⟩ := bind_eq_ok.mp h
  obtain ⟨e, he, h⟩ := bind_eq_ok.mp h
  obtain ⟨q, hq, h⟩ := bind_eq_ok.mp h
  cases h
  exact ⟨parent, assoc, t, key, e, q, hparent, hassoc, ht, hkey, he, hq, rfl⟩

theorem requireField_eq_ok {m : Model} {name : String} {assoc : Association} :
    requireField m name = .ok assoc ↔ m.associationForField? name = some assoc := by
  unfold requireField
  split <;> simp [*]

theorem mem_of_requireField {m : Model} {name : String} {assoc : Association}
    (h : requireField m name = .ok assoc) : assoc ∈ m.associations :=
  Model.mem_of_association? (Model.association?_of_field (requireField_eq_ok.mp h))

end Query

/-- The list of changed rows is the list of the model, restricted to their keys. -/
theorem Event.changedList_eq_ok {events : List Event}
    (h : changedList s model field info events = .ok (some p)) :
    ∃ ids m e q, changedIds s model events = .ok ids ∧ s.model model = .ok m ∧
      Filter.compile s model (.obj [(m.primaryKey, .obj [("_inOp", .arr ids)])]) = .ok e ∧
      Query.rootList s model field info = .ok q ∧ p = Query.restrict q e := by
  obtain ⟨ids, hids, h⟩ := bind_eq_ok.mp h
  split at h
  · cases h
  · obtain ⟨m, hm, h⟩ := bind_eq_ok.mp h
    obtain ⟨e, he, h⟩ := bind_eq_ok.mp h
    obtain ⟨q, hq, h⟩ := bind_eq_ok.mp h
    cases h
    exact ⟨ids, m, e, q, hids, hm, he, hq, rfl⟩

end RelQuery

import RelQuery.Proofs.Filter.Nested
import RelQuery.Proofs.Filter.WellFormed

/-!
# One comparison

The filter that compares one attribute by one operator is an operator key inside the keys that lead
to the attribute. It compiles exactly as the comparison in the scope there: the checks of the
operator and the reading of the operand are all that can fail.
-/

namespace RelQuery

/-- The key of an operator in a filter document. -/
def Operator.key (op : Operator) : String := "_" ++ op.name ++ "Op"

namespace Filter

/-- Keys inside one another that lead from a scope to another one. -/
inductive LeadsAlong (s : Schema) : Scope → List String → Scope → Prop
  | here {scope : Scope} : LeadsAlong s scope [] scope
  | key {scope inner target : Scope} {key : String} {keys : List String} :
      (∀ fields, role s scope key (.obj fields) = .ok (.within inner)) →
      LeadsAlong s inner keys target → LeadsAlong s scope (key :: keys) target

/-- Keys that lead from a model to an attribute, and the scope they lead to. -/
structure Addresses (s : Schema) (model : String) (keys : List String) (scope : Scope)
    (a : Attribute) : Prop where
  leads : ∃ m, s.model model = .ok m ∧ LeadsAlong s (.root m) keys scope
  attr : scope.attr = some a

/-- The filter that compares what the keys lead to with a value. -/
def comparing (keys : List String) (op : Operator) (value : Document) : Document :=
  .nest (keys ++ [op.key]) value

variable {s : Schema} {model : String} {keys : List String} {scope inner : Scope} {a : Attribute}
  {op : Operator} {value : Document} {fields : List (String × Document)}

theorem operatorName?_key (op : Operator) : operatorName? op.key = some op.name := by
  cases op <;> decide

/-- An operator key compares the attribute in scope. -/
theorem compileEntry_key (hv : holdsFilters scope value = false) :
    compileEntry s scope op.key value = leaf s scope op value := by
  rw [compileEntry, role, operatorName?_key]
  cases op <;> simp [operatorRole, Operator.name, Operator.ofName?, Operator.all, hv]

theorem compileValue_key (hv : holdsFilters scope value = false) :
    compileValue s scope (.obj [(op.key, value)]) = leaf s scope op value := by
  rw [compileValue_singleton, compileEntry_key hv]

theorem exists_nest_obj (keys : List String) (fields : List (String × Document)) :
    ∃ entries, Document.nest keys (.obj fields) = .obj entries := by
  cases keys with
  | nil => exact ⟨fields, rfl⟩
  | cons key keys => exact ⟨_, rfl⟩

theorem compileValue_leadsAlong (h : LeadsAlong s scope keys inner) :
    compileValue s scope (.nest keys (.obj fields)) = compileValue s inner (.obj fields) := by
  induction h with
  | here => rfl
  | @key scope inner target key keys hrole _ ih =>
    obtain ⟨entries, hentries⟩ := exists_nest_obj keys fields
    change compileValue s scope (.obj [(key, .nest keys (.obj fields))]) = _
    rw [hentries] at ih ⊢
    rw [compileValue_within (hrole entries), ih]

theorem placed_of_leadsAlong {root : Model} (h : LeadsAlong s scope keys inner)
    (hs : scope.Placed s root) : inner.Placed s root := by
  induction h with
  | here => exact hs
  | key hrole _ ih => exact ih (hs.leadsTo (.of_role (hrole [])))

/-- The name of an attribute leads to it. -/
theorem addresses_attribute {m : Model} {name : String} (hm : s.model model = .ok m)
    (ha : m.attribute? name = some a) (hname : IsField name) :
    Addresses s model [name] ((Scope.root m).atAttribute a) a where
  leads := by
    refine ⟨m, hm, .key (fun fields => ?_) .here⟩
    have hmodel : (Scope.root m).model = m := rfl
    rw [role_of_isField hname rfl, fieldRole, hmodel, ha]
  attr := rfl

namespace Addresses

variable (h : Addresses s model keys scope a)
include h

/-- The comparison compiles as the leaf in the scope that the keys lead to. -/
theorem compile_comparing (hv : holdsFilters scope value = false) :
    compile s model (comparing keys op value) = leaf s scope op value := by
  obtain ⟨m, hm, hleads⟩ := h.leads
  have hnest : comparing keys op value = .nest keys (.obj [(op.key, value)]) := by
    simp [comparing, Document.nest]
  obtain ⟨entries, hentries⟩ := exists_nest_obj keys [(op.key, value)]
  rw [hnest, hentries, compile_obj hm, ← hentries, compileValue_leadsAlong hleads,
    compileValue_key hv]

/-- Only a type with documents leads on into one. -/
theorem documentPath_eq_nil (htype : a.type.isStructured = false) : scope.documentPath = [] := by
  obtain ⟨m, -, hleads⟩ := h.leads
  by_contra hne
  have hplaced := placed_of_leadsAlong hleads (Scope.placed_root s m)
  exact absurd ((hplaced.document a h.attr hne).symm.trans htype) nofun

theorem holdsFilters_eq_false (hv : ∀ fields, value ≠ .obj fields) :
    holdsFilters scope value = false := by
  cases value with
  | arr items => simp [holdsFilters, h.attr]
  | obj fields => exact (hv fields rfl).elim
  | _ => rfl

end Addresses

/-! ## Stored attributes -/

/-- The comparison of a stored attribute, outside documents. -/
def stored (scope : Scope) (a : Attribute) (op : Operator) (operand : Operand) : Filter :=
  .comparison ⟨⟨scope.hops, a.name, []⟩, op, operand, some a.type, scope.negated⟩

theorem isPattern_testForNull (op : Operator) (value : Document) :
    (Operand.testForNull op value).isPattern = op.isPattern := by
  unfold Operand.testForNull
  split
  · cases op <;> rfl
  · rfl

/-- A stored attribute is compared with the operand that its type makes of the value. -/
theorem leaf_stored (ha : scope.attr = some a) (hstored : a.computed = none)
    (hdoc : scope.documentPath = []) (hop : op.isPattern = false) :
    leaf s scope op value = (do
      Operand.checkShape (Operand.testForNull op value) value a.name
      let operand ← Operand.ofValue a.type s.options.dialect value a.name
      return stored scope a (Operand.testForNull op value) operand) := by
  simp [leaf, ha, hstored, hdoc, isPattern_testForNull, hop, stored]

end Filter

end RelQuery

import RelQuery.Proofs.Filter.Flat
import RelQuery.Proofs.Plan.Negated

/-!
# Local filters

A filter is local if it compares only attributes of the model it is on. At an attribute no key leads
to another model, so the filter of a single attribute is local.
-/

namespace RelQuery.Filter

/-- Every comparison is with an attribute behind the hops. -/
def Behind (hops : List String) (f : Filter) : Prop :=
  ∀ path negated, f.Reaches (path, negated) → path.hops = hops

/-- Every comparison is with an attribute of the model that the filter is on. -/
def Local (f : Filter) : Prop := f.Behind []

variable {s : Schema} {m : Model} {a : Attribute} {scope inner : Scope} {key : String}
  {value : Document} {f l : Filter} {fs : List Filter} {k : Connective} {op : Operator}
  {hops : List String}

theorem Behind.leaf (hl : f.leaves = [f])
    (h : ∀ path negated, f.reach? = some (path, negated) → path.hops = hops) : f.Behind hops := by
  rintro path negated ⟨l, hmem, hr⟩
  cases List.mem_singleton.mp (hl ▸ hmem)
  exact h path negated hr

theorem Behind.raw {sql : String} : (raw sql).Behind hops := .leaf rfl nofun

theorem Behind.combine (h : ∀ f ∈ fs, f.Behind hops) : (combine k fs).Behind hops := by
  intro path negated hr
  obtain ⟨f, hf, hr⟩ := reaches_combine.mp hr
  exact h f hf path negated hr

/-! ## At an attribute -/

theorem behind_leaf (h : Filter.leaf s scope op value = .ok f) : f.Behind scope.hops := by
  obtain ⟨a, -, ⟨c, rfl, hc⟩ | ⟨e, c, -, rfl, hc, -⟩⟩ := leaf_eq_ok h
  · refine .leaf rfl fun path negated hr => ?_
    cases hr
    rw [hc]
  · refine .leaf rfl fun path negated hr => ?_
    cases hr
    rw [hc]

/-- At an attribute a key leads only on into the document of the attribute. -/
theorem inner_of_role (h : role s scope key value = .ok (.within inner))
    (ha : scope.attr.isSome = true) :
    inner = { scope with documentPath := scope.documentPath ++ [key] } := by
  unfold role at h
  split at h
  · exact (operatorRole_ne_within h).elim
  · split at h
    · cases h
    · split at h
      · cases h
        rfl
      · cases h

theorem role_within_attribute (h : role s scope key value = .ok (.within inner))
    (ha : scope.attr.isSome = true) : inner.attr.isSome = true ∧ inner.hops = scope.hops := by
  cases inner_of_role h ha
  exact ⟨ha, rfl⟩

theorem compositional_atAttribute (s : Schema) :
    Compositional s (fun scope _ f => scope.attr.isSome = true → f.Behind scope.hops)
      fun scope _ _ f => scope.attr.isSome = true → f.Behind scope.hops where
  object h ha := .combine fun f hf => forall_of_forall₂ h f hf ha
  array hn _ ha := by simp [hn] at ha
  leaf _ h _ := behind_leaf h
  within hr h ha := by
    obtain ⟨hattr, hhops⟩ := role_within_attribute hr ha
    exact hhops ▸ h hattr
  expression _ _ _ := .raw
  operator _ h _ := behind_leaf h
  connectiveItems _ h ha := .combine fun f hf => forall_of_forall₂ h f hf ha
  connectiveEntries _ h ha := .combine fun f hf => forall_of_forall₂ h f hf ha
  negation _ _ h ha := h ha
  negatedLeaf _ _ h _ := behind_leaf h

/-! ## Filters of one key -/

theorem compileValue_entry (h : compileValue s scope (.obj [(key, value)]) = .ok f) :
    ∃ g, compileEntry s scope key value = .ok g ∧ f = all [g] := by
  rw [compileValue] at h
  obtain ⟨fs, hfs, rfl⟩ := map_eq_ok.mp h
  rw [compileFields_cons] at hfs
  obtain ⟨g, hg, hfs⟩ := bind_eq_ok.mp hfs
  cases hfs
  exact ⟨g, hg, rfl⟩

theorem compile_entry {model : String} (hm : s.model model = .ok m)
    (h : compile s model (.obj [(key, value)]) = .ok f) :
    ∃ g, compileEntry s (.root m) key value = .ok g ∧ f = all [g] := by
  obtain ⟨n, hn, -, h⟩ := compile_eq_ok.mp h
  cases hm.symm.trans hn
  exact compileValue_entry h

theorem role_attribute (hop : operatorName? key = none) (hexp : key ≠ expressionKey)
    (ha : m.attribute? key = some a) :
    role s (.root m) key value = .ok (.within ((Scope.root m).atAttribute a)) := by
  simp [role, hop, hexp, Scope.root, Scope.inDocument, fieldRole, ha]

/-- A filter whose only key is an attribute is that of the value at the attribute. -/
theorem compile_attribute {model : String} (hm : s.model model = .ok m)
    (hop : operatorName? key = none) (hexp : key ≠ expressionKey) (ha : m.attribute? key = some a)
    (h : compile s model (.obj [(key, value)]) = .ok f) :
    ∃ g, compileValue s ((Scope.root m).atAttribute a) value = .ok g ∧ f = all [g] := by
  obtain ⟨g, hg, rfl⟩ := compile_entry hm h
  rw [compileEntry, role_attribute hop hexp ha] at hg
  exact ⟨g, hg, rfl⟩

/-- A filter whose only key is an attribute, and not read as an operator, is local. -/
theorem local_of_compile {model : String} (hm : s.model model = .ok m)
    (hop : operatorName? key = none) (hkey : key ∈ m.attributeNames)
    (h : compile s model (.obj [(key, value)]) = .ok f) : f.Local := by
  obtain ⟨g, hg, rfl⟩ := compile_entry hm h
  refine .combine (List.forall_mem_singleton.mpr ?_)
  obtain ⟨r, hr, hg⟩ := bind_eq_ok.mp hg
  simp only [role, hop] at hr
  split at hr
  · cases hr
    obtain ⟨sql, -, rfl⟩ := map_eq_ok.mp hg
    exact .raw
  · obtain ⟨a, ha⟩ := Option.isSome_iff_exists.mp (Model.attribute?_isSome.mpr hkey)
    simp only [Scope.root, Scope.inDocument, Option.any_none, Option.isSome_none, fieldRole, ha,
      Bool.false_eq_true, if_false] at hr
    cases hr
    exact (compositional_atAttribute s).compileValue hg rfl

/-! ### Keys that are no attributes -/

theorem leaf_root_ne_ok : leaf s (.root m) op value ≠ .ok f := nofun

theorem role_of_operatorName {name : String} {r : Role} (hname : operatorName? key = some name)
    (h : role s scope key value = .ok r) :
    (∃ k, r = .connective k) ∨ r = .negation ∨ ∃ op, r = .operator op := by
  simp only [role, hname] at h
  exact operatorRole_eq_ok h

theorem role_expression : role s scope expressionKey value = .ok .expression := rfl

/-- The key of a scalar at a model is not read as an operator or an expression. -/
theorem plainKey_of_scalar {model : String} (hm : s.model model = .ok m)
    (hv : isBracket value = false) (h : compile s model (.obj [(key, value)]) = .ok f) :
    operatorName? key = none ∧ key ≠ expressionKey := by
  obtain ⟨g, hg, -⟩ := compile_entry hm h
  obtain ⟨r, hr, hg⟩ := bind_eq_ok.mp hg
  cases hname : operatorName? key with
  | some name =>
    rcases role_of_operatorName hname hr with ⟨k, rfl⟩ | rfl | ⟨op, rfl⟩
    · cases value with
      | arr | obj => cases hv
      | _ => cases hg
    · have hholds : holdsFilters (.root m) value = false := by
        cases value with
        | arr | obj => cases hv
        | _ => rfl
      simp only [hholds, Bool.false_eq_true, if_false] at hg
      exact (leaf_root_ne_ok hg).elim
    · exact (leaf_root_ne_ok hg).elim
  | none =>
    refine ⟨rfl, fun hexp => ?_⟩
    rw [hexp, role_expression] at hr
    cases hr
    cases value with
    | arr | obj => cases hv
    | _ => cases hg

/-- At a model a list of values has nothing to be compared with. -/
theorem compileFields_looseList : compileFields s (.root m) [("_inOp", value)] ≠ .ok fs := by
  intro h
  rw [compileFields_cons] at h
  obtain ⟨g, hg, -⟩ := bind_eq_ok.mp h
  obtain ⟨r, hr, hg⟩ := bind_eq_ok.mp hg
  have hrole : role s (.root m) "_inOp" value = .ok (.operator .isIn) := rfl
  cases hrole.symm.trans hr
  exact leaf_root_ne_ok hg

/-- The key of a list of values at a model is not read as an operator. -/
theorem operatorName?_of_compile {model : String} (hm : s.model model = .ok m)
    (h : compile s model (.obj [(key, .obj [("_inOp", value)])]) = .ok f) :
    operatorName? key = none := by
  obtain ⟨g, hg, -⟩ := compile_entry hm h
  obtain ⟨r, hr, hg⟩ := bind_eq_ok.mp hg
  cases hname : operatorName? key with
  | none => rfl
  | some name =>
    rcases role_of_operatorName hname hr with ⟨k, rfl⟩ | rfl | ⟨op, rfl⟩
    · obtain ⟨fs, hfs, -⟩ := map_eq_ok.mp hg
      exact (compileFields_looseList hfs).elim
    · obtain ⟨g, hg, -⟩ := map_eq_ok.mp hg
      rw [compileValue] at hg
      obtain ⟨fs, hfs, -⟩ := map_eq_ok.mp hg
      exact (compileFields_looseList hfs).elim
    · exact (leaf_root_ne_ok hg).elim

/-- Nor is it read as an expression. -/
theorem ne_expressionKey_of_compile {model : String} (hm : s.model model = .ok m)
    (h : compile s model (.obj [(key, .obj [("_inOp", value)])]) = .ok f) :
    key ≠ expressionKey := by
  rintro rfl
  obtain ⟨g, hg, -⟩ := compile_entry hm h
  rw [compileEntry, role_expression] at hg
  cases value <;> cases hg

end RelQuery.Filter

import RelQuery.Proofs.Filter.CompileInduction
import RelQuery.Proofs.Filter.Leaves
import RelQuery.Proofs.Schema.Lookup

/-!
# Filters that have a condition

The condition of a filter can be written if the hops of every leaf lead somewhere and every operand
has the form that its operator asks for. What compiles is of that kind, and combining, merging and
lowering keep it.
-/

namespace RelQuery

/-! ## Operands -/

/-- Whether an operand has the form that an operator asks for. -/
def Operand.Fits (op : Operator) : Operand → Prop
  | .plain (.arr items) => op.takesList = true ∧ (op.isRange = true → items.length = 2)
  | .plain (.obj _) => False
  | _ => True

namespace Operand

variable {op : Operator} {value d : Document} {operand : Operand} {attr : String}
  {type : ScalarType} {dialect : Dialect}

theorem fits_of_checkShape {u : Unit} (h : checkShape op value attr = .ok u) :
    Fits op (.plain value) := by
  unfold checkShape at h
  cases value with
  | arr items =>
    split at h
    · rename_i hop
      refine ⟨hop, fun hr => ?_⟩
      dsimp only at h
      split at h
      · cases h
      · simp_all
    · cases op <;> cases h
  | obj fields =>
    split at h
    · cases h
    · cases op <;> cases h
  | _ => trivial

theorem fits_scalar (h : scalar type value attr = .ok d) (hv : Fits op (.plain value)) :
    Fits op (.plain d) := by
  unfold scalar at h
  split at h
  · cases h
    trivial
  · split at h
    · obtain ⟨n, -, h⟩ := bind_eq_ok.mp h
      cases h
      trivial
    · split at h
      · obtain ⟨x, -, h⟩ := bind_eq_ok.mp h
        cases h
        trivial
      · cases h
        exact hv

/-- Reading a value by the type of its attribute keeps its form. -/
theorem fits_ofValue (h : ofValue type dialect value attr = .ok operand)
    (hv : Fits op (.plain value)) : Fits op operand := by
  unfold ofValue at h
  split at h
  · obtain ⟨items, hitems, h⟩ := bind_eq_ok.mp h
    cases h
    exact ⟨hv.1, fun hr => (length_of_mapM hitems).trans (hv.2 hr)⟩
  · split at h
    · obtain ⟨t, -, h⟩ := bind_eq_ok.mp h
      cases h
      trivial
    · obtain ⟨d, hd, h⟩ := bind_eq_ok.mp h
      cases h
      exact fits_scalar hd hv
  · obtain ⟨d, hd, h⟩ := bind_eq_ok.mp h
    cases h
    exact fits_scalar hd hv

end Operand

/-- A comparison whose operand fits can be written. -/
theorem Comparison.exists_sql {c : Comparison} (h : c.operand.Fits c.operator)
    (column : ColumnRef) : ∃ sql, c.sql column = .ok sql := by
  unfold Comparison.sql
  dsimp only
  cases hop : c.operand with
  | cast literal type => exact ⟨_, rfl⟩
  | plain value =>
    rw [hop] at h
    cases value with
    | obj fields => exact h.elim
    | arr items =>
      obtain ⟨hl, hr⟩ := h
      cases hk : c.operator <;> rw [hk] at hl hr
      case isIn => cases items <;> exact ⟨_, rfl⟩
      case notIn => cases items <;> exact ⟨_, rfl⟩
      case between | notBetween =>
        obtain ⟨low, high, rfl⟩ := List.length_eq_two.mp (hr rfl)
        exact ⟨_, rfl⟩
      all_goals cases hl
    | str t =>
      cases c.operator <;> exact ⟨_, rfl⟩
    | _ => cases c.operator <;> exact ⟨_, rfl⟩

namespace Filter

variable {s : Schema} {m root : Model} {scope inner : Scope} {f g l : Filter} {fs : List Filter}
  {k : Connective} {table : String}

/-- Whether a leaf of a filter on `m` can be written. -/
def LeafWritable (s : Schema) (m : Model) : Filter → Prop
  | .comparison c => (∃ t, s.modelAt m c.path.hops = .ok t) ∧ c.operand.Fits c.operator
  | .computed c => ∃ t, s.modelAt m c.path.hops = .ok t
  | .raw _ => True
  | _ => False

/-- Whether a filter on `m` can be written. -/
def Writable (s : Schema) (m : Model) (f : Filter) : Prop := ∀ l ∈ f.leaves, LeafWritable s m l

theorem LeafWritable.writable (h : LeafWritable s m f) (hl : f.leaves = [f]) : f.Writable s m :=
  fun _ h' => List.mem_singleton.mp (hl ▸ h') ▸ h

namespace Writable

theorem raw {sql : String} : Writable s m (.raw sql) :=
  LeafWritable.writable (f := .raw sql) trivial rfl

theorem combine (h : ∀ f ∈ fs, f.Writable s m) : (combine k fs).Writable s m := by
  intro l hl
  obtain ⟨f, hf, hl⟩ := mem_leaves_combine hl
  exact h f hf l hl

theorem merge {a b : Option Filter} (ha : ∀ f, a = some f → f.Writable s m)
    (hb : ∀ f, b = some f → f.Writable s m) (h : merge? a b = some f) : f.Writable s m := by
  intro l hl
  obtain ⟨g, hg | hg, hl⟩ := mem_leaves_merge? h hl
  · exact ha g hg l hl
  · exact hb g hg l hl

theorem lower (hf : f.Writable s m) (h : f.lower s m table = .ok g) : g.Writable s m := by
  intro l hl
  obtain ⟨k, hk, hl⟩ := mem_leaves_lower h hl
  have hw := hf k hk
  cases k with
  | comparison c =>
    cases hl
    exact hw
  | raw sql =>
    cases hl
    exact hw
  | computed c =>
    obtain ⟨t, -, hl⟩ := bind_eq_ok.mp hl
    cases hl
    trivial
  | _ => exact hw.elim

theorem exists_lower (hf : f.Writable s m) (table : String) :
    ∃ g, f.lower s m table = .ok g := by
  induction f with
  | computed c =>
    obtain ⟨t, ht⟩ := hf _ (List.mem_singleton_self _)
    exact ⟨.raw (Computed.condition t (joinName table c.path.hops) c.expression c.operator
      c.literal c.negated), by simp [Filter.lower, ht]⟩
  | logical k fs ih =>
    obtain ⟨gs, hgs⟩ := exists_mapM fun f hmem =>
      ih f hmem fun l hl => hf l (mem_leaves_logical.mpr ⟨f, hmem, hl⟩)
    exact ⟨Filter.combine k gs, by simp [Filter.lower, lowerAll_eq_mapM, hgs]⟩
  | not f ih =>
    obtain ⟨g, hg⟩ := ih hf
    exact ⟨.not g, by simp [Filter.lower, hg]⟩
  | comparison c => exact ⟨_, rfl⟩
  | raw sql => exact ⟨_, rfl⟩

theorem exists_condition (hf : f.Writable s m) (table : String) :
    ∃ c, f.condition s m table = .ok c := by
  refine Filter.exists_condition fun l hl => ?_
  have hw := hf l hl
  cases l with
  | comparison c =>
    obtain ⟨⟨t, ht⟩, hc⟩ := hw
    obtain ⟨sql, hsql⟩ := Comparison.exists_sql hc ⟨joinName table c.path.hops,
      t.columnOf c.path.attr⟩
    exact ⟨.negateIf c.negated (.atom sql), by simp [condition, Comparison.column, ht, hsql]⟩
  | raw sql => exact ⟨_, rfl⟩
  | computed c =>
    obtain ⟨t, ht⟩ := hw
    refine ⟨.atom [.text (Computed.condition t (joinName table c.path.hops) c.expression
      c.operator c.literal c.negated)], ?_⟩
    simp [condition, ht]
  | _ => exact hw.elim

end Writable

/-! ## What compiles can be written -/

/-- A comparison with the attribute in scope points behind the hops of the scope. -/
theorem leaf_writable {op : Operator} {value : Document} (h : leaf s scope op value = .ok f)
    (hs : s.modelAt root scope.hops = .ok scope.model) : f.Writable s root := by
  obtain ⟨a, op', -, -, hshape, ⟨e, literal, -, -, rfl⟩ | ⟨operand, -, hoperand, rfl⟩⟩ :=
    leaf_cases h
  · exact LeafWritable.writable ⟨_, hs⟩ rfl
  · have hfits := Operand.fits_of_checkShape hshape
    refine LeafWritable.writable ⟨⟨_, hs⟩, ?_⟩ rfl
    split at hoperand
    · exact hoperand ▸ hfits
    · exact Operand.fits_ofValue hoperand hfits

theorem operatorRole_eq_ok {name : String} {r : Role} (h : operatorRole name = .ok r) :
    (∃ k, r = .connective k) ∨ r = .negation ∨ ∃ op, r = .operator op := by
  unfold operatorRole at h
  split at h
  · cases h
    exact .inl ⟨_, rfl⟩
  · split at h
    · cases h
      exact .inl ⟨_, rfl⟩
    · split at h
      · cases h
        exact .inr (.inl rfl)
      · split at h
        · cases h
          exact .inr (.inr ⟨_, rfl⟩)
        · cases h

theorem operatorRole_ne_within {name : String} : operatorRole name ≠ .ok (.within inner) := by
  intro h
  rcases operatorRole_eq_ok h with ⟨k, h⟩ | h | ⟨op, h⟩ <;> cases h

theorem modelAt_of_fieldRole {key : String} {value : Document}
    (h : fieldRole s scope key value = .ok (.within inner))
    (hs : s.modelAt root scope.hops = .ok scope.model) :
    s.modelAt root inner.hops = .ok inner.model := by
  unfold fieldRole at h
  split at h
  · cases h
    exact hs
  · split at h
    · rename_i hassoc
      split at h
      · obtain ⟨target, ht, h⟩ := bind_eq_ok.mp h
        cases h
        rw [Schema.modelAt_append hs]
        exact Schema.modelAt_singleton (Schema.follow_of_field hassoc ht)
      · cases h
    · split at h
      · obtain ⟨r, hr, h⟩ := bind_eq_ok.mp h
        cases h
        rw [Schema.modelAt_append hs]
        exact Path.modelAt_walk hr
      · cases h

/-- A key leads on to the model behind the hops of the inner scope. -/
theorem modelAt_of_role {key : String} {value : Document}
    (h : role s scope key value = .ok (.within inner))
    (hs : s.modelAt root scope.hops = .ok scope.model) :
    s.modelAt root inner.hops = .ok inner.model := by
  unfold role at h
  split at h
  · exact (operatorRole_ne_within h).elim
  · split at h
    · cases h
    · split at h
      · cases h
        exact hs
      · split at h
        · cases h
        · exact modelAt_of_fieldRole h hs

theorem forall_of_forall₂ {α : Type} {as : List α} {Q : Filter → Prop}
    (h : List.Forall₂ (fun _ f => Q f) as fs) : ∀ f ∈ fs, Q f := by
  intro f hf
  obtain ⟨_, -, hf⟩ := exists_of_forall₂ h hf
  exact hf

theorem compositional_writable (s : Schema) (root : Model) :
    Compositional s
      (fun scope _ f => s.modelAt root scope.hops = .ok scope.model → f.Writable s root)
      fun scope _ _ f => s.modelAt root scope.hops = .ok scope.model → f.Writable s root where
  object h hs := .combine fun f hf => forall_of_forall₂ h f hf hs
  array _ h hs := .combine fun f hf => forall_of_forall₂ h f hf hs
  leaf _ h hs := leaf_writable h hs
  within hr h hs := h (modelAt_of_role hr hs)
  expression _ _ _ := .raw
  operator _ h hs := leaf_writable h hs
  connectiveItems _ h hs := .combine fun f hf => forall_of_forall₂ h f hf hs
  connectiveEntries _ h hs := .combine fun f hf => forall_of_forall₂ h f hf hs
  negation _ _ h hs := h hs
  negatedLeaf _ _ h hs := leaf_writable h hs

/-- What compiles can be written. -/
theorem writable_of_compile {value : Document} (hm : s.model table = .ok m)
    (h : compile s table value = .ok f) : f.Writable s m := by
  obtain ⟨n, hn, -, h⟩ := compile_eq_ok.mp h
  cases hm.symm.trans hn
  exact (compositional_writable s m).compileValue h rfl

end Filter

end RelQuery

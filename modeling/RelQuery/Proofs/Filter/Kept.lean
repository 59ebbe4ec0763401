import RelQuery.Proofs.Filter.CompileInduction
import RelQuery.Proofs.Filter.MergeParts
import RelQuery.Proofs.Filter.Writable

/-!
# How filters are put together

Compiling, merging and lowering put filters together in the same few ways. What each of these keeps
holds of all that they return.
-/

namespace RelQuery.Filter

/-- A property of filters that every way to put them together keeps. -/
structure Kept (P : Filter → Prop) : Prop where
  comparison : ∀ c, P (.comparison c)
  computed : ∀ c, P (.computed c)
  raw : ∀ sql, P (.raw sql)
  not : ∀ {f}, P f → P (.not f)
  /-- What a filter contributes to a combination has the property too. -/
  parts : ∀ {k f g}, P f → g ∈ parts k f → P g
  combine : ∀ {k fs}, (∀ f ∈ fs, P f) → P (combine k fs)

variable {P : Filter → Prop} {a b f g : Filter} {fs gs : List Filter} {k : Connective}
  {s : Schema} {scope : Scope} {op : Operator} {value : Document}

/-- A comparison of the attribute in scope: with its column, or with its expression. -/
theorem leaf_eq_ok (h : leaf s scope op value = .ok f) : ∃ a, scope.attr = some a ∧
    ((∃ c, f = .comparison c ∧ c.path = ⟨scope.hops, a.name, scope.documentPath⟩) ∨
      ∃ e c, a.computed = some e ∧ f = .computed c ∧ c.path = ⟨scope.hops, a.name, []⟩ ∧
        c.expression = e.expression) := by
  obtain ⟨a, op', ha, -, -, ⟨e, literal, he, -, rfl⟩ | ⟨operand, -, -, rfl⟩⟩ := leaf_cases h
  · exact ⟨a, ha, .inr ⟨e, _, he, rfl, rfl, rfl⟩⟩
  · exact ⟨a, ha, .inl ⟨_, rfl, rfl⟩⟩

namespace Kept

variable (H : Kept P)
include H

/-! ## Merging -/

theorem alternatives (hf : ∀ f ∈ fs, P f) (hg : ∀ g ∈ gs, P g) (h : g ∈ alternatives fs gs) :
    P g := by
  unfold Filter.alternatives at h
  split at h
  · exact hf g h
  · cases List.mem_singleton.mp h
    have hall : ∀ f ∈ [all fs, all gs], P f :=
      List.forall_mem_cons.mpr ⟨H.combine hf, List.forall_mem_singleton.mpr (H.combine hg)⟩
    exact H.combine hall

theorem mergedPart (ha : P a) (hb : P b) (h : MergedPart a b g) : P g := by
  have hka : ∀ key, ∀ f ∈ a.onKey key, P f := fun key f hf => H.parts ha (mem_onKey.mp hf).1
  have hkb : ∀ key, ∀ f ∈ b.onKey key, P f := fun key f hf => H.parts hb (mem_onKey.mp hf).1
  rcases h with ⟨key, h⟩ | h | h
  · unfold group at h
    split at h
    · exact hka key g h
    · split at h
      · exact hkb key g h
      · exact H.alternatives (hka key) (hkb key) h
  · exact H.parts ha (mem_unkeyed.mp h).1
  · exact H.parts hb (mem_unkeyed.mp h).1

theorem merge? (ha : P a) (hb : P b) (h : merge? (some a) (some b) = some f) : P f := by
  unfold Filter.merge? at h
  dsimp only at h
  split at h
  · cases h
    exact ha
  · cases proper?_eq_some h
    exact H.combine fun g hg => H.mergedPart ha hb (mergedPart_of_mem hg)

/-! ## Lowering -/

/-- Lowering puts its result together anew, so that it has the property whatever was lowered. -/
theorem lower {m : Model} {table : String} (h : f.lower s m table = .ok g) : P g := by
  induction f generalizing g with
  | comparison c =>
    cases h
    exact H.comparison c
  | raw sql =>
    cases h
    exact H.raw sql
  | computed c =>
    obtain ⟨t, -, h⟩ := bind_eq_ok.mp h
    cases h
    exact H.raw _
  | logical k fs ih =>
    obtain ⟨gs, hgs, h⟩ := bind_eq_ok.mp h
    cases h
    rw [lowerAll_eq_mapM] at hgs
    refine H.combine fun g hg => ?_
    obtain ⟨f, hf, h⟩ := mem_of_mapM hgs hg
    exact ih f hf h
  | not f ih =>
    obtain ⟨g, hg, h⟩ := bind_eq_ok.mp h
    cases h
    exact H.not (ih hg)

/-! ## Compiling -/

theorem leaf (h : leaf s scope op value = .ok f) : P f := by
  obtain ⟨a, -, ⟨c, rfl, -⟩ | ⟨e, c, -, rfl, -⟩⟩ := leaf_eq_ok h
  · exact H.comparison c
  · exact H.computed c

theorem compositional (s : Schema) :
    Compositional s (fun _ _ f => P f) fun _ _ _ f => P f where
  object h := H.combine (forall_of_forall₂ h)
  array _ h := H.combine (forall_of_forall₂ h)
  leaf _ h := H.leaf h
  within _ h := h
  expression _ _ := H.raw _
  operator _ h := H.leaf h
  connectiveItems _ h := H.combine (forall_of_forall₂ h)
  connectiveEntries _ h := H.combine (forall_of_forall₂ h)
  negation _ _ h := H.not h
  negatedLeaf _ _ h := H.leaf h

theorem compile {model : String} (h : compile s model value = .ok f) : P f := by
  obtain ⟨m, -, -, h⟩ := compile_eq_ok.mp h
  exact (H.compositional s).compileValue h

end Kept

end RelQuery.Filter

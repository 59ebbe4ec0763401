import RelQuery.Proofs.Filter.Inherited
import RelQuery.Proofs.Plan.Scope

/-!
# The negated paths of a merge

The nodes on the path of a negated comparison are inner joins. A merge drops copies of filters, but
it has the paths of both sides, and so asks for the inner joins that either of them does.
-/

namespace RelQuery

namespace Filter

/-- A leaf of the filter compares the attribute at the end of a path. -/
def Reaches (f : Filter) (r : AttributePath × Bool) : Prop := ∃ l ∈ f.leaves, l.reach? = some r

variable {a b f g : Filter} {fs gs : List Filter} {key : MergeKey} {k : Connective}
  {r : AttributePath × Bool} {hops : List String}

@[simp] theorem reaches_logical : (logical k fs).Reaches r ↔ ∃ f ∈ fs, f.Reaches r := by
  simp only [Reaches, mem_leaves_logical]
  constructor
  · rintro ⟨l, ⟨f, hf, hl⟩, hr⟩
    exact ⟨f, hf, l, hl, hr⟩
  · rintro ⟨f, hf, l, hl, hr⟩
    exact ⟨l, ⟨f, hf, hl⟩, hr⟩

/-- Connectives and negations reach what their operands reach. -/
theorem inherited_reaches (r : AttributePath × Bool) : Inherited (Reaches · r) where
  logical := reaches_logical
  not := id
  comparison_congr {a b} h := by
    change (a.path == b.path && a.operator == b.operator && a.operand == b.operand &&
      a.type == b.type && a.negated == b.negated) = true at h
    simp only [Bool.and_eq_true, beq_iff_eq] at h
    simp [Reaches, leaves, reach?, h.1.1.1.1, h.2]
  not_congr := id

/-- Equal filters reach the same. -/
theorem reaches_congr (h : same f g = true) : f.Reaches r ↔ g.Reaches r :=
  (inherited_reaches r).congr h

/-- A combination reaches what its operands reach. -/
theorem reaches_combine : (combine k fs).Reaches r ↔ ∃ f ∈ fs, f.Reaches r :=
  (inherited_reaches r).combine

/-! ## Merges -/

theorem reaches_group_left (hf : f ∈ a.onKey key) (hr : f.Reaches r) :
    ∃ g ∈ group a b key, g.Reaches r := by
  unfold group
  split
  · exact ⟨f, hf, hr⟩
  · rw [if_neg (List.ne_nil_of_mem hf)]
    unfold alternatives
    split
    · exact ⟨f, hf, hr⟩
    · have hall : (all (a.onKey key)).Reaches r := reaches_combine.mpr ⟨f, hf, hr⟩
      exact ⟨_, List.mem_singleton_self _,
        reaches_combine.mpr ⟨_, List.mem_cons_self, hall⟩⟩

theorem reaches_group_right (hf : f ∈ b.onKey key) (hr : f.Reaches r) :
    ∃ g ∈ group a b key, g.Reaches r := by
  unfold group
  rw [if_neg (List.ne_nil_of_mem hf)]
  split
  · exact ⟨f, hf, hr⟩
  · unfold alternatives
    split
    · rename_i h
      simp only [sameSet, Bool.and_eq_true, List.all_eq_true] at h
      exact (inherited_reaches r).of_contains (h.2 f hf) hr
    · have hall : (all (b.onKey key)).Reaches r := reaches_combine.mpr ⟨f, hf, hr⟩
      exact ⟨_, List.mem_singleton_self _,
        reaches_combine.mpr ⟨_, List.mem_cons_of_mem _ List.mem_cons_self, hall⟩⟩

theorem reaches_mergedParts (h : a.Reaches r ∨ b.Reaches r) :
    ∃ g ∈ mergedParts a b, g.Reaches r := by
  have hpart : ∃ g, MergedPart a b g ∧ g.Reaches r := by
    rcases h with h | h
    · obtain ⟨f, hf, hr⟩ := ((inherited_reaches r).parts (k := .and)).mpr h
      cases hkey : f.mergeKey? with
      | none => exact ⟨f, .inr (.inl (mem_unkeyed.mpr ⟨hf, hkey⟩)), hr⟩
      | some key =>
        obtain ⟨g, hg, hr⟩ := reaches_group_left (b := b) (mem_onKey.mpr ⟨hf, hkey⟩) hr
        exact ⟨g, .inl ⟨key, hg⟩, hr⟩
    · obtain ⟨f, hf, hr⟩ := ((inherited_reaches r).parts (k := .and)).mpr h
      cases hkey : f.mergeKey? with
      | none => exact ⟨f, .inr (.inr (mem_unkeyed.mpr ⟨hf, hkey⟩)), hr⟩
      | some key =>
        obtain ⟨g, hg, hr⟩ := reaches_group_right (a := a) (mem_onKey.mpr ⟨hf, hkey⟩) hr
        exact ⟨g, .inl ⟨key, hg⟩, hr⟩
  obtain ⟨g, hg, hr⟩ := hpart
  obtain ⟨g', hg', hgg'⟩ := exists_same_mergedParts hg
  exact ⟨g', hg', (reaches_congr hgg').mp hr⟩

/-- A filter that may be missing reaches the end of a path. -/
def OptionReaches (f? : Option Filter) (r : AttributePath × Bool) : Prop :=
  ∃ f, f? = some f ∧ f.Reaches r

theorem optionReaches_proper? (h : f.Reaches r) : OptionReaches f.proper? r := by
  rcases proper?_eq f with heq | ⟨-, rfl⟩
  · exact ⟨f, heq, h⟩
  · obtain ⟨l, hl, -⟩ := h
    cases hl

/-- A merge reaches what either side reaches. -/
theorem optionReaches_merge? {a? b? : Option Filter} :
    OptionReaches (merge? a? b?) r ↔ OptionReaches a? r ∨ OptionReaches b? r := by
  constructor
  · rintro ⟨f, hf, l, hl, hr⟩
    obtain ⟨g, hg | hg, hl⟩ := mem_leaves_merge? hf hl
    · exact .inl ⟨g, hg, l, hl, hr⟩
    · exact .inr ⟨g, hg, l, hl, hr⟩
  · intro h
    cases a? with
    | none => exact h.resolve_left fun ⟨_, ha, _⟩ => nomatch ha
    | some a =>
      cases b? with
      | none => exact h.resolve_right fun ⟨_, hb, _⟩ => nomatch hb
      | some b =>
        have h : a.Reaches r ∨ b.Reaches r := by
          rcases h with ⟨_, ⟨⟩, hr⟩ | ⟨_, ⟨⟩, hr⟩
          · exact .inl hr
          · exact .inr hr
        unfold merge?
        dsimp only
        split
        · rename_i hab
          exact ⟨a, rfl, h.elim id (reaches_congr hab).mpr⟩
        · exact optionReaches_proper? (reaches_combine.mpr (reaches_mergedParts h))

/-! ## Negated hops -/

theorem mem_negatedHopsAll_iff : hops ∈ negatedHopsAll fs ↔ ∃ f ∈ fs, hops ∈ f.negatedHops := by
  induction fs with
  | nil => simp [negatedHopsAll]
  | cons f fs ih => simp [negatedHopsAll, ih]

theorem mem_negatedHops_iff : hops ∈ f.negatedHops ↔
    hops ≠ [] ∧ ∃ path, path.hops = hops ∧ f.Reaches (path, true) := by
  constructor
  · intro h
    induction f with
    | comparison c =>
      simp only [negatedHops] at h
      split at h
      · rename_i hc
        simp only [Bool.and_eq_true, Bool.not_eq_true', List.isEmpty_eq_false_iff] at hc
        cases List.mem_singleton.mp h
        exact ⟨hc.2, c.path, rfl, .comparison c, List.mem_singleton_self _, by simp [reach?, hc.1]⟩
      · cases h
    | computed c =>
      simp only [negatedHops] at h
      split at h
      · rename_i hc
        simp only [Bool.and_eq_true, Bool.not_eq_true', List.isEmpty_eq_false_iff] at hc
        cases List.mem_singleton.mp h
        exact ⟨hc.2, c.path, rfl, .computed c, List.mem_singleton_self _, by simp [reach?, hc.1]⟩
      · cases h
    | raw sql => cases h
    | logical k fs ih =>
      obtain ⟨f, hf, h⟩ := mem_negatedHopsAll_iff.mp h
      obtain ⟨hne, path, hpath, hr⟩ := ih f hf h
      exact ⟨hne, path, hpath, reaches_logical.mpr ⟨f, hf, hr⟩⟩
    | not f ih => exact ih h
  · rintro ⟨hne, path, rfl, l, hl, hr⟩
    exact mem_negatedHops hl hr hne

/-- The hops of the negated comparisons of a filter that may be missing. -/
def negatedPaths (f? : Option Filter) : List (List String) := f?.elim [] negatedHops

theorem mem_negatedPaths {f? : Option Filter} : hops ∈ negatedPaths f? ↔
    hops ≠ [] ∧ ∃ path, path.hops = hops ∧ OptionReaches f? (path, true) := by
  cases f? with
  | none => simp [negatedPaths, OptionReaches]
  | some f => simp [negatedPaths, OptionReaches, mem_negatedHops_iff]

/-- The negated paths of a merge are those of both sides. -/
theorem mem_negatedPaths_merge? {a? b? : Option Filter} :
    hops ∈ negatedPaths (merge? a? b?) ↔ hops ∈ negatedPaths a? ∨ hops ∈ negatedPaths b? := by
  simp only [mem_negatedPaths, optionReaches_merge?, and_or_left, exists_or]

end Filter

end RelQuery

import RelQuery.Proofs.Filter.MergeValue
import RelQuery.Proofs.Filter.Leaves
import RelQuery.Proofs.Filter.Same

/-!
# The conjuncts of a merge

A merge has the conjuncts without a key of both sides, and for each key a group: what one side says
of the key, or an alternative of what both say. Copies are dropped, so conjuncts are found again
only up to equality.
-/

namespace RelQuery.Filter

variable {a b f g : Filter} {fs gs : List Filter} {key : MergeKey}

/-! ## Lists without copies -/

theorem mem_append_of_left (h : f ∈ fs) : f ∈ append fs gs := by
  unfold append
  induction gs generalizing fs with
  | nil => exact h
  | cons g gs ih =>
    rw [List.foldl_cons]
    refine ih ?_
    split
    · exact h
    · exact List.mem_append_left _ h

/-- Of a filter that is added there is a copy. -/
theorem exists_same_append (h : g ∈ gs) : ∃ f ∈ append fs gs, same g f = true := by
  induction gs generalizing fs with
  | nil => cases h
  | cons g' gs ih =>
    rcases List.mem_cons.mp h with rfl | h
    · have hstep : ∃ f ∈ (if fs.contains g then fs else fs ++ [g]), same g f = true := by
        split
        · rename_i hc
          exact List.contains_iff_exists_mem_beq.mp hc
        · exact ⟨g, by simp, g.same_refl⟩
      have hcons : append fs (g :: gs) =
          append (if fs.contains g then fs else fs ++ [g]) gs := rfl
      obtain ⟨f, hf, hgf⟩ := hstep
      rw [hcons]
      exact ⟨f, mem_append_of_left hf, hgf⟩
    · exact ih h

theorem exists_same_distinct (h : g ∈ gs) : ∃ f ∈ distinct gs, same g f = true :=
  exists_same_append h

/-- Of a list of copies one is left. -/
theorem distinct_of_forall_eq (h : ∀ g ∈ gs, g = f) (hf : f ∈ gs) : distinct gs = [f] := by
  have H : ∀ gs : List Filter, (∀ g ∈ gs, g = f) → append [f] gs = [f] := by
    intro gs h
    induction gs with
    | nil => rfl
    | cons g gs ih =>
      rw [List.forall_mem_cons] at h
      unfold append at ih ⊢
      rw [List.foldl_cons, if_pos (contains_of_mem (List.mem_singleton.mpr h.1)), ih h.2]
  cases gs with
  | nil => cases hf
  | cons g gs =>
    rw [List.forall_mem_cons] at h
    cases h.1
    exact H gs h.2

theorem proper?_eq (f : Filter) : f.proper? = some f ∨ f.proper? = none ∧ f = always := by
  unfold proper?
  split
  · rename_i h
    unfold isAlways at h
    split at h
    · exact .inr ⟨rfl, rfl⟩
    · cases h
  · exact .inl rfl

/-! ## Groups -/

/-- The conjuncts of a merge on a key. -/
def group (a b : Filter) (key : MergeKey) : List Filter :=
  if b.onKey key = [] then a.onKey key
  else if a.onKey key = [] then b.onKey key
  else alternatives (a.onKey key) (b.onKey key)

theorem mem_joinKeyed : g ∈ joinKeyed a.grouped.keyed b.grouped.keyed ↔
    ∃ key ∈ a.keys, g ∈ group a b key := by
  simp only [joinKeyed, List.mem_flatMap, Prod.exists, mem_grouped, mem_keys]
  constructor
  · rintro ⟨key, fs, ⟨rfl, ha⟩, hg⟩
    refine ⟨key, ha, ?_⟩
    rw [lookup_grouped] at hg
    unfold group
    by_cases hb : b.onKey key = []
    · rwa [if_pos hb] at hg ⊢
    · rw [if_neg hb] at hg ⊢
      rwa [if_neg ha]
  · rintro ⟨key, ha, hg⟩
    refine ⟨key, a.onKey key, ⟨rfl, ha⟩, ?_⟩
    rw [lookup_grouped]
    unfold group at hg
    by_cases hb : b.onKey key = []
    · rwa [if_pos hb] at hg ⊢
    · rw [if_neg hb, if_neg ha] at hg
      rwa [if_neg hb]

theorem mem_otherKeyed : g ∈ otherKeyed a.grouped.keyed b.grouped.keyed ↔
    ∃ key, key ∉ a.keys ∧ g ∈ b.onKey key := by
  simp only [otherKeyed, List.mem_flatMap, Prod.exists, mem_grouped]
  constructor
  · rintro ⟨key, fs, ⟨rfl, -⟩, hg⟩
    split at hg
    · cases hg
    · exact ⟨key, any_grouped.not.mp ‹_›, hg⟩
  · rintro ⟨key, ha, hg⟩
    refine ⟨key, b.onKey key, ⟨rfl, List.ne_nil_of_mem hg⟩, ?_⟩
    rwa [if_neg (any_grouped.not.mpr ha)]

theorem mem_group_of_right (ha : key ∉ a.keys) : g ∈ group a b key ↔ g ∈ b.onKey key := by
  have ha : a.onKey key = [] := not_ne_iff.mp (mem_keys.not.mp ha)
  unfold group
  by_cases hb : b.onKey key = []
  · rw [if_pos hb, ha, hb]
  · rw [if_neg hb, if_pos ha]

theorem exists_group_iff : (∃ key, g ∈ group a b key) ↔
    g ∈ joinKeyed a.grouped.keyed b.grouped.keyed ++
      otherKeyed a.grouped.keyed b.grouped.keyed := by
  rw [List.mem_append, mem_joinKeyed, mem_otherKeyed]
  constructor
  · rintro ⟨key, hg⟩
    by_cases ha : key ∈ a.keys
    · exact .inl ⟨key, ha, hg⟩
    · exact .inr ⟨key, ha, (mem_group_of_right ha).mp hg⟩
  · rintro (⟨key, -, hg⟩ | ⟨key, ha, hg⟩)
    · exact ⟨key, hg⟩
    · exact ⟨key, (mem_group_of_right ha).mpr hg⟩

/-- What the conjuncts of a merge are. -/
def MergedPart (a b g : Filter) : Prop :=
  (∃ key, g ∈ group a b key) ∨ g ∈ a.unkeyed ∨ g ∈ b.unkeyed

theorem mergedPart_of_mem (h : g ∈ mergedParts a b) : MergedPart a b g := by
  unfold mergedParts at h
  dsimp only at h
  rw [free_grouped, free_grouped] at h
  rcases mem_append h with h | h
  · rcases List.mem_append.mp h with h | h
    · exact .inl (exists_group_iff.mpr h)
    · exact .inr (.inl h)
  · exact .inr (.inr h)

theorem exists_same_mergedParts (h : MergedPart a b g) :
    ∃ f ∈ mergedParts a b, same g f = true := by
  unfold mergedParts
  dsimp only
  rw [free_grouped, free_grouped]
  rcases h with h | h | h
  · exact ⟨g, mem_append_of_left (List.mem_append_left _ (exists_group_iff.mp h)), g.same_refl⟩
  · exact ⟨g, mem_append_of_left (List.mem_append_right _ h), g.same_refl⟩
  · exact exists_same_append h

/-! ## Filters that may be missing -/

/-- What a merge of two filters keeps, it keeps if one of them is missing. -/
theorem forall_merge? {P : Filter → Prop} {a? b? : Option Filter}
    (H : ∀ {f g h}, P f → P g → merge? (some f) (some g) = some h → P h)
    (ha : ∀ f, a? = some f → P f) (hb : ∀ f, b? = some f → P f) :
    ∀ f, merge? a? b? = some f → P f := by
  intro f h
  cases a? with
  | none => exact hb f h
  | some a =>
    cases b? with
    | none => exact ha f h
    | some b => exact H (ha a rfl) (hb b rfl) h

end RelQuery.Filter

import RelQuery.Plan.Lowering
import RelQuery.Proofs.Except
import RelQuery.Proofs.Filter.Grouping
import RelQuery.Statement.Condition

/-!
# The leaves of a filter

Combining, merging, lowering and rendering filters changes what is around their leaves. No leaf
appears that was not there, except that lowering puts a raw condition in place of each comparison
with a computed attribute.
-/

namespace RelQuery.Filter

mutual

/-- The comparisons and raw conditions of a filter, in order. -/
def leaves : Filter → List Filter
  | .comparison c => [.comparison c]
  | .computed c => [.computed c]
  | .raw sql => [.raw sql]
  | .logical _ fs => leavesAll fs
  | .not f => leaves f

def leavesAll : List Filter → List Filter
  | [] => []
  | f :: fs => leaves f ++ leavesAll fs

end

variable {a b f g l : Filter} {fs gs : List Filter} {k : Connective}

theorem mem_leavesAll : l ∈ leavesAll fs ↔ ∃ f ∈ fs, l ∈ f.leaves := by
  induction fs with
  | nil => simp [leavesAll]
  | cons f fs ih => simp [leavesAll, ih]

@[simp] theorem mem_leaves_logical : l ∈ (logical k fs).leaves ↔ ∃ f ∈ fs, l ∈ f.leaves := by
  rw [leaves, mem_leavesAll]

/-- Whether a filter is a comparison or a raw condition. -/
def IsLeaf : Filter → Prop
  | .logical _ _ => False
  | .not _ => False
  | _ => True

theorem isLeaf_of_mem (h : l ∈ f.leaves) : l.IsLeaf := by
  induction f with
  | logical k fs ih =>
    obtain ⟨f, hf, hl⟩ := mem_leaves_logical.mp h
    exact ih f hf hl
  | not f ih => exact ih h
  | _ => exact List.mem_singleton.mp h ▸ trivial

/-! ## Combinations -/

theorem mem_append (h : f ∈ append fs gs) : f ∈ fs ∨ f ∈ gs := by
  unfold append at h
  induction gs generalizing fs with
  | nil => exact .inl h
  | cons g gs ih =>
    rcases ih h with h | h
    · dsimp only at h
      split at h
      · exact .inl h
      · rcases List.mem_append.mp h with h | h
        · exact .inl h
        · exact .inr (List.mem_singleton.mp h ▸ List.mem_cons_self)
    · exact .inr (List.mem_cons_of_mem _ h)

theorem mem_distinct (h : f ∈ distinct fs) : f ∈ fs :=
  (mem_append (f := f) h).resolve_left List.not_mem_nil

theorem mem_leaves_of_parts (h : g ∈ parts k f) (hl : l ∈ g.leaves) : l ∈ f.leaves := by
  unfold parts at h
  split at h
  · split at h
    · exact mem_leaves_logical.mpr ⟨g, h, hl⟩
    · exact List.mem_singleton.mp h ▸ hl
  · exact List.mem_singleton.mp h ▸ hl

/-- A combination has no leaves but those of its operands. -/
theorem mem_leaves_combine (h : l ∈ (combine k fs).leaves) : ∃ f ∈ fs, l ∈ f.leaves := by
  have H : ∃ g ∈ distinct (fs.flatMap (parts k)), l ∈ g.leaves := by
    unfold combine at h
    split at h
    · rename_i g hg
      exact ⟨g, hg ▸ List.mem_cons_self, h⟩
    · exact mem_leaves_logical.mp h
  obtain ⟨g, hg, hl⟩ := H
  obtain ⟨f, hf, hg⟩ := List.mem_flatMap.mp (mem_distinct hg)
  exact ⟨f, hf, mem_leaves_of_parts hg hl⟩

theorem proper?_eq_some (h : f.proper? = some g) : f = g := by
  unfold proper? at h
  split at h
  · cases h
  · exact Option.some.inj h

/-! ## Merges -/

theorem mem_leaves_alternatives (hg : g ∈ alternatives fs gs) (hl : l ∈ g.leaves) :
    ∃ f ∈ fs ++ gs, l ∈ f.leaves := by
  unfold alternatives at hg
  split at hg
  · exact ⟨g, List.mem_append_left _ hg, hl⟩
  · cases List.mem_singleton.mp hg
    obtain ⟨h, hh, hl⟩ := mem_leaves_combine hl
    rcases List.mem_cons.mp hh with rfl | hh
    · obtain ⟨f, hf, hl⟩ := mem_leaves_combine hl
      exact ⟨f, List.mem_append_left _ hf, hl⟩
    · cases List.mem_singleton.mp hh
      obtain ⟨f, hf, hl⟩ := mem_leaves_combine hl
      exact ⟨f, List.mem_append_right _ hf, hl⟩

theorem mem_conjuncts_of_keyed {key : MergeKey} (h : (key, fs) ∈ f.grouped.keyed) (hg : g ∈ fs) :
    g ∈ f.conjuncts := by
  obtain ⟨rfl, -⟩ := mem_grouped.mp h
  exact (mem_onKey.mp hg).1

theorem mem_conjuncts_of_free (h : g ∈ f.grouped.free) : g ∈ f.conjuncts := by
  rw [free_grouped] at h
  exact (mem_unkeyed.mp h).1

theorem mem_leaves_joinKeyed (hg : g ∈ joinKeyed a.grouped.keyed b.grouped.keyed)
    (hl : l ∈ g.leaves) : ∃ f ∈ a.conjuncts ++ b.conjuncts, l ∈ f.leaves := by
  obtain ⟨⟨key, fs⟩, he, hg⟩ := List.mem_flatMap.mp hg
  dsimp only at hg
  rw [lookup_grouped] at hg
  by_cases hb : b.onKey key = []
  · rw [if_pos hb] at hg
    exact ⟨g, List.mem_append_left _ (mem_conjuncts_of_keyed he hg), hl⟩
  · rw [if_neg hb] at hg
    obtain ⟨f, hf, hl⟩ := mem_leaves_alternatives hg hl
    rcases List.mem_append.mp hf with hf | hf
    · exact ⟨f, List.mem_append_left _ (mem_conjuncts_of_keyed he hf), hl⟩
    · exact ⟨f, List.mem_append_right _ (mem_onKey.mp hf).1, hl⟩

theorem mem_conjuncts_of_otherKeyed (hg : g ∈ otherKeyed a.grouped.keyed b.grouped.keyed) :
    g ∈ b.conjuncts := by
  obtain ⟨⟨key, gs⟩, he, hg⟩ := List.mem_flatMap.mp hg
  dsimp only at hg
  split at hg
  · cases hg
  · exact mem_conjuncts_of_keyed he hg

theorem mem_leaves_mergedParts (hg : g ∈ mergedParts a b) (hl : l ∈ g.leaves) :
    ∃ f ∈ a.conjuncts ++ b.conjuncts, l ∈ f.leaves := by
  unfold mergedParts at hg
  dsimp only at hg
  rcases mem_append hg with hg | hg
  · rcases List.mem_append.mp hg with hg | hg
    · rcases List.mem_append.mp hg with hg | hg
      · exact mem_leaves_joinKeyed hg hl
      · exact ⟨g, List.mem_append_right _ (mem_conjuncts_of_otherKeyed hg), hl⟩
    · exact ⟨g, List.mem_append_left _ (mem_conjuncts_of_free hg), hl⟩
  · exact ⟨g, List.mem_append_right _ (mem_conjuncts_of_free hg), hl⟩

/-- A merge has no leaves but those of both sides. -/
theorem mem_leaves_merge? {a? b? : Option Filter} (h : merge? a? b? = some f)
    (hl : l ∈ f.leaves) : ∃ g, (a? = some g ∨ b? = some g) ∧ l ∈ g.leaves := by
  cases a? with
  | none => exact ⟨f, .inr h, hl⟩
  | some a =>
    cases b? with
    | none => exact ⟨f, .inl h, hl⟩
    | some b =>
      unfold merge? at h
      dsimp only at h
      split at h
      · exact ⟨f, .inl h, hl⟩
      · cases proper?_eq_some h
        obtain ⟨g, hg, hl⟩ := mem_leaves_combine hl
        obtain ⟨f, hf, hl⟩ := mem_leaves_mergedParts hg hl
        rcases List.mem_append.mp hf with hf | hf
        · exact ⟨a, .inl rfl, mem_leaves_of_parts hf hl⟩
        · exact ⟨b, .inr rfl, mem_leaves_of_parts hf hl⟩

/-! ## Lowering -/

variable {s : Schema} {m : Model} {table : String}

theorem lowerAll_eq_mapM : lowerAll s m table fs = fs.mapM (lower s m table) := by
  induction fs with
  | nil => rfl
  | cons f fs ih => simp [lowerAll, ih, List.mapM_cons]

/-- Every leaf of a lowered filter is a lowered leaf. -/
theorem mem_leaves_lower (h : f.lower s m table = .ok g) (hl : l ∈ g.leaves) :
    ∃ k ∈ f.leaves, k.lower s m table = .ok l := by
  induction f generalizing g l with
  | comparison c =>
    cases h
    cases List.mem_singleton.mp hl
    exact ⟨_, List.mem_singleton_self _, rfl⟩
  | raw sql =>
    cases h
    cases List.mem_singleton.mp hl
    exact ⟨_, List.mem_singleton_self _, rfl⟩
  | computed c =>
    refine ⟨_, List.mem_singleton_self _, ?_⟩
    obtain ⟨target, -, h'⟩ := bind_eq_ok.mp h
    cases h'
    cases List.mem_singleton.mp hl
    exact h
  | logical k fs ih =>
    obtain ⟨gs, hgs, h⟩ := bind_eq_ok.mp h
    cases h
    obtain ⟨g, hg, hl⟩ := mem_leaves_combine hl
    rw [lowerAll_eq_mapM] at hgs
    obtain ⟨f, hf, h⟩ := mem_of_mapM hgs hg
    obtain ⟨k, hk, h⟩ := ih f hf h hl
    exact ⟨k, mem_leaves_logical.mpr ⟨f, hf, hk⟩, h⟩
  | not f ih =>
    obtain ⟨g, hg, h⟩ := bind_eq_ok.mp h
    cases h
    exact ih hg hl

/-! ## Conditions -/

theorem conditions_eq_mapM : conditions s m table fs = fs.mapM (condition s m table) := by
  induction fs with
  | nil => rfl
  | cons f fs ih => simp [conditions, ih, List.mapM_cons]

/-- A filter has a condition if its leaves have. -/
theorem exists_condition (H : ∀ l ∈ f.leaves, ∃ c, l.condition s m table = .ok c) :
    ∃ c, f.condition s m table = .ok c := by
  induction f with
  | logical k fs ih =>
    obtain ⟨cs, hcs⟩ := exists_mapM fun f hf =>
      ih f hf fun l hl => H l (mem_leaves_logical.mpr ⟨f, hf, hl⟩)
    exact ⟨.logical k cs, by simp [condition, conditions_eq_mapM, hcs]⟩
  | not f ih =>
    obtain ⟨c, hc⟩ := ih H
    exact ⟨.negation c, by simp [condition, hc]⟩
  | _ => exact H _ (List.mem_singleton_self _)

end RelQuery.Filter

import Mathlib.Data.List.Induction
import Mathlib.Data.List.Nodup
import RelQuery.Proofs.Document.Compact

/-!
# Distinct documents

Documents are told apart by their texts, and the first of each is kept. As a text determines its
document, nothing is lost.
-/

namespace RelQuery

/-! ## Lists, each item once -/

section
variable {α β : Type} [BEq α] [LawfulBEq α] [BEq β] [LawfulBEq β]

theorem eraseDups_concat (ids : List α) (i : α) : (ids ++ [i]).eraseDups =
    if i ∈ ids then ids.eraseDups else ids.eraseDups ++ [i] := by
  rw [List.eraseDups_append]
  split
  · rename_i hi
    have hnone : [i].removeAll ids = [] := by simpa [List.removeAll] using hi
    rw [hnone, List.eraseDups_nil, List.append_nil]
  · rename_i hi
    have hone : [i].removeAll ids = [i] := by simpa [List.removeAll] using hi
    rw [hone]
    rfl

theorem nodup_eraseDups (ids : List α) : ids.eraseDups.Nodup := by
  induction ids using List.reverseRecOn with
  | nil => exact List.nodup_nil
  | append_singleton ids i ih =>
    rw [eraseDups_concat]
    split
    · exact ih
    · rename_i hi
      refine List.nodup_append.mpr ⟨ih, List.pairwise_singleton _ i, fun j hj k hk hjk => ?_⟩
      cases List.mem_singleton.mp hk
      exact hi (List.mem_eraseDups.mp (hjk ▸ hj))

/-- What is read off different items is different, so it does not matter when repetitions are
dropped. -/
theorem eraseDups_filterMap {f : α → Option β} (hf : ∀ i j k, f i = some k → f j = some k → i = j)
    (ids : List α) : (ids.filterMap f).eraseDups = ids.eraseDups.filterMap f := by
  induction ids using List.reverseRecOn with
  | nil => rfl
  | append_singleton ids i ih =>
    rw [List.filterMap_append, eraseDups_concat]
    cases hi : f i with
    | none =>
      have hnil : [i].filterMap f = [] := by simp [hi]
      rw [hnil, List.append_nil, ih]
      split
      · rfl
      · rw [List.filterMap_append, hnil, List.append_nil]
    | some k =>
      have hone : [i].filterMap f = [k] := by simp [hi]
      have hmem : k ∈ ids.filterMap f ↔ i ∈ ids := by
        rw [List.mem_filterMap]
        exact ⟨fun ⟨j, hj, hk⟩ => hf j i k hk hi ▸ hj, fun h => ⟨i, h, hi⟩⟩
      rw [hone, eraseDups_concat, ih]
      by_cases h : i ∈ ids
      · rw [if_pos (hmem.mpr h), if_pos h]
      · rw [if_neg fun hk => h (hmem.mp hk), if_neg h, List.filterMap_append, hone]

end

theorem eraseDups_of_nodup {ids : List String} (h : ids.Nodup) : ids.eraseDups = ids := by
  induction ids using List.reverseRecOn with
  | nil => rfl
  | append_singleton ids i ih =>
    rw [List.nodup_append] at h
    have hi : i ∉ ids := fun hi => h.2.2 i hi i List.mem_cons_self rfl
    rw [eraseDups_concat, if_neg hi, ih h.1]

theorem eraseDups_replicate {ids : List String} {i : String} (hne : ids ≠ [])
    (h : ∀ j ∈ ids, j = i) : ids.eraseDups = [i] := by
  obtain ⟨j, ids, rfl⟩ := List.exists_cons_of_ne_nil hne
  rw [List.forall_mem_cons] at h
  obtain ⟨rfl, h⟩ := h
  rw [List.eraseDups_cons, List.filter_eq_nil_iff.mpr, List.eraseDups_nil]
  intro k hk
  simp [h k hk]

/-! ## Documents, each once -/

namespace Document

variable {d : Document} {ds : List Document}

theorem distinctByText_concat : distinctByText (ds ++ [d]) =
    if (distinctByText ds).any (·.compact == d.compact) then distinctByText ds
    else distinctByText ds ++ [d] := by
  rw [distinctByText, List.foldl_append]
  rfl

/-- Documents are told apart by their texts. -/
theorem map_compact_distinctByText (ds : List Document) :
    (distinctByText ds).map compact = (ds.map compact).eraseDups := by
  induction ds using List.reverseRecOn with
  | nil => rfl
  | append_singleton ds d ih =>
    rw [distinctByText_concat, List.map_append, List.map_singleton, eraseDups_concat, ← ih]
    by_cases hd : d.compact ∈ ds.map compact
    · have hany : (distinctByText ds).any (·.compact == d.compact) = true := by
        have hmem := List.mem_eraseDups.mpr hd
        rw [← ih] at hmem
        obtain ⟨d', hd', heq⟩ := List.mem_map.mp hmem
        exact List.any_eq_true.mpr ⟨d', hd', beq_iff_eq.mpr heq⟩
      rw [if_pos hany, if_pos hd]
    · have hany : ¬(distinctByText ds).any (·.compact == d.compact) = true := by
        intro h
        obtain ⟨d', hd', heq⟩ := List.any_eq_true.mp h
        have hmem : d.compact ∈ (distinctByText ds).map compact :=
          List.mem_map.mpr ⟨d', hd', beq_iff_eq.mp heq⟩
        rw [ih] at hmem
        exact hd (List.mem_eraseDups.mp hmem)
      rw [if_neg hany, if_neg hd, List.map_append]
      rfl

theorem mem_distinctByText : d ∈ distinctByText ds ↔ d ∈ ds := by
  have hmem : ∀ ds : List Document, d ∈ ds ↔ d.compact ∈ ds.map compact := by
    intro ds
    rw [List.mem_map]
    constructor
    · exact fun h => ⟨d, h, rfl⟩
    · rintro ⟨d', hd', heq⟩
      rwa [← compact_injective heq]
  rw [hmem, map_compact_distinctByText, List.mem_eraseDups, ← hmem]

theorem nodup_distinctByText (ds : List Document) : (distinctByText ds).Nodup := by
  have h := nodup_eraseDups (ds.map compact)
  rw [← map_compact_distinctByText] at h
  exact h.of_map compact

end Document

end RelQuery

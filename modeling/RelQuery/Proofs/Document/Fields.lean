import Mathlib.Data.List.Forall2
import RelQuery.Document.Basic

/-!
# Fields of objects

Setting a field changes it and nothing else; taking one out leaves all others, although the last of
them may change its place.
-/

namespace RelQuery

/-! ## Lookups by name -/

section Lookup

variable {α : Type} {es es' : List (String × α)} {k j : String} {a : α}

theorem lookup_cons_if : ((k, a) :: es).lookup j = if j = k then some a else es.lookup j := by
  by_cases h : j = k
  · simp [h]
  · simp [List.lookup_cons, beq_eq_false_iff_ne.mpr h, h]

theorem lookup_eq_none_iff : es.lookup j = none ↔ j ∉ es.map (·.1) := by
  rw [List.lookup_eq_none_iff]
  constructor
  · intro h hj
    obtain ⟨e, he, rfl⟩ := List.mem_map.mp hj
    simpa using h e he
  · intro h e he
    rw [bne_iff_ne]
    rintro rfl
    exact h (List.mem_map_of_mem he)

theorem mem_of_lookup (h : es.lookup j = some a) : (j, a) ∈ es := by
  obtain ⟨l, r, rfl, -⟩ := List.lookup_eq_some_iff.mp h
  exact List.mem_append_right _ List.mem_cons_self

theorem lookup_of_mem (hnodup : (es.map (·.1)).Nodup) (h : (j, a) ∈ es) :
    es.lookup j = some a := by
  induction es with
  | nil => cases h
  | cons e es ih =>
    obtain ⟨k, b⟩ := e
    rw [List.map_cons, List.nodup_cons] at hnodup
    rw [lookup_cons_if]
    rcases List.mem_cons.mp h with heq | hmem
    · cases heq
      rw [if_pos rfl]
    · have hne : j ≠ k := by
        rintro rfl
        exact hnodup.1 (List.mem_map.mpr ⟨(j, a), hmem, rfl⟩)
      rw [if_neg hne, ih hnodup.2 hmem]

/-- Names that are filtered out do not hide others. -/
theorem rel_lookup {β : Type} {R : α → β → Prop} {bs : List (String × β)}
    (h : List.Forall₂ (fun a b => a.1 = b.1 ∧ R a.2 b.2) es bs) :
    Option.Rel R (es.lookup j) (bs.lookup j) := by
  induction h with
  | nil => exact .none
  | cons hab _ ih =>
    rw [lookup_cons_if, lookup_cons_if, hab.1]
    split
    · exact .some hab.2
    · exact ih

theorem lookup_filter_ne (h : j ≠ k) : (es.filter (·.1 ≠ k)).lookup j = es.lookup j := by
  induction es with
  | nil => rfl
  | cons e es ih =>
    obtain ⟨l, b⟩ := e
    by_cases hl : l = k
    · subst hl
      rw [List.filter_cons_of_neg (by simp), ih, lookup_cons_if, if_neg h]
    · rw [List.filter_cons_of_pos (by simpa using hl), lookup_cons_if, lookup_cons_if, ih]

end Lookup

namespace Fields

variable {fs gs : Fields} {k j : String} {v : Document}

/-! ## Insertion -/

theorem lookup_insert : (insert k v fs).lookup j = if j = k then some v else fs.lookup j := by
  induction fs with
  | nil => exact lookup_cons_if
  | cons f fs ih =>
    obtain ⟨l, w⟩ := f
    rw [insert]
    split
    · rename_i hl
      cases hl
      rw [lookup_cons_if, lookup_cons_if]
      split <;> rfl
    · rename_i hl
      rw [lookup_cons_if, lookup_cons_if, ih]
      split
      · rename_i hj
        rw [if_neg fun hjk => hl (hj.symm.trans hjk)]
      · rfl

theorem keys_insert : (insert k v fs).map (·.1) =
    if k ∈ fs.map (·.1) then fs.map (·.1) else fs.map (·.1) ++ [k] := by
  induction fs with
  | nil => rfl
  | cons f fs ih =>
    rw [insert]
    split
    · rename_i hf
      rw [if_pos (by rw [← hf]; exact List.mem_cons_self), List.map_cons, List.map_cons, ← hf]
    · rename_i hf
      simp only [List.map_cons, List.mem_cons, Ne.symm hf, false_or, ih]
      split <;> rfl

theorem nodup_insert (h : (fs.map (·.1)).Nodup) : ((insert k v fs).map (·.1)).Nodup := by
  rw [keys_insert]
  split
  · exact h
  · rename_i hk
    refine List.nodup_append.mpr ⟨h, List.pairwise_singleton _ k, fun a ha b hb hab => ?_⟩
    cases List.mem_singleton.mp hb
    exact hk (hab ▸ ha)

theorem insert_of_notMem (h : k ∉ fs.map (·.1)) : insert k v fs = fs ++ [(k, v)] := by
  induction fs with
  | nil => rfl
  | cons f fs ih =>
    rw [List.map_cons, List.mem_cons, not_or] at h
    rw [insert, if_neg (Ne.symm h.1), ih h.2, List.cons_append]

theorem insert_append_cons {w : Document} (h : k ∉ fs.map (·.1)) :
    insert k v (fs ++ (k, w) :: gs) = fs ++ (k, v) :: gs := by
  induction fs with
  | nil => exact if_pos rfl
  | cons f fs ih =>
    rw [List.map_cons, List.mem_cons, not_or] at h
    rw [List.cons_append, insert, if_neg (Ne.symm h.1), ih h.2, List.cons_append]

theorem insert_insert {w : Document} : insert k v (insert k w fs) = insert k v fs := by
  induction fs with
  | nil => exact if_pos rfl
  | cons f fs ih =>
    rw [insert, insert]
    split
    · exact if_pos rfl
    · rename_i hf
      rw [insert, if_neg hf, ih]

/-! ## Erasure -/

/-- What stands behind a field that is taken out. -/
def behind (fs : Fields) : Fields :=
  match fs.getLast? with
  | some f => f :: fs.dropLast
  | none => []

theorem perm_behind (fs : Fields) : (behind fs).Perm fs := by
  rcases List.eq_nil_or_concat fs with rfl | ⟨fs, f, rfl⟩
  · exact .nil
  · rw [behind, List.concat_eq_append, List.getLast?_concat, List.dropLast_concat]
    exact List.perm_append_singleton f fs |>.symm

theorem erase_of_notMem (h : k ∉ fs.map (·.1)) : erase k fs = fs := by
  have hnone : fs.findIdx? (fun f => decide (f.1 = k)) = none := by
    rw [List.findIdx?_eq_none_iff]
    intro f hf
    rw [decide_eq_false_iff_not]
    rintro rfl
    exact h (List.mem_map_of_mem hf)
  rw [erase, hnone]

/-- The last field moves into the place of the one that is taken out. -/
theorem erase_append_cons (h : k ∉ fs.map (·.1)) :
    erase k (fs ++ (k, v) :: gs) = fs ++ behind gs := by
  have hfind : (fs ++ (k, v) :: gs).findIdx? (fun f => decide (f.1 = k)) = some fs.length := by
    have hnone : fs.findIdx? (fun f => decide (f.1 = k)) = none := by
      rw [List.findIdx?_eq_none_iff]
      intro f hf
      rw [decide_eq_false_iff_not]
      rintro rfl
      exact h (List.mem_map_of_mem hf)
    rw [List.findIdx?_append, hnone, List.findIdx?_cons]
    simp
  rw [erase, hfind]
  rcases List.eq_nil_or_concat gs with rfl | ⟨gs, g, rfl⟩
  · rw [List.getLast?_concat]
    simp [behind]
  · have hlast : (fs ++ (k, v) :: gs.concat g).getLast? = some g := by
      rw [List.concat_eq_append, List.getLast?_append, List.getLast?_cons, List.getLast?_concat]
      rfl
    rw [hlast, behind, List.concat_eq_append, List.getLast?_concat, List.dropLast_concat]
    dsimp only
    rw [List.set_append_right _ _ (Nat.le_refl _), Nat.sub_self, List.set_cons_zero,
      List.dropLast_append_of_ne_nil (List.cons_ne_nil _ _), ← List.cons_append,
      List.dropLast_concat]

theorem erase_append (h : k ∉ fs.map (·.1)) : erase k (fs ++ gs) = fs ++ erase k gs := by
  by_cases hk : k ∈ gs.map (·.1)
  · obtain ⟨v, hv⟩ := Option.ne_none_iff_exists'.mp fun hnone => lookup_eq_none_iff.mp hnone hk
    obtain ⟨l, r, rfl, hl⟩ := List.lookup_eq_some_iff.mp hv
    have hl : k ∉ l.map (·.1) := by
      intro hmem
      obtain ⟨f, hf, rfl⟩ := List.mem_map.mp hmem
      simpa using hl f hf
    have hfl : k ∉ (fs ++ l).map (·.1) := by
      rw [List.map_append, List.mem_append]
      exact fun hmem => hmem.elim h hl
    rw [erase_append_cons hl, ← List.append_assoc, erase_append_cons hfl, List.append_assoc]
  · have hfs : k ∉ (fs ++ gs).map (·.1) := by
      rw [List.map_append, List.mem_append]
      exact fun hmem => hmem.elim h hk
    rw [erase_of_notMem hfs, erase_of_notMem hk]

/-- Without its place, the field that is taken out is all that is missing. -/
theorem perm_erase (hnodup : (fs.map (·.1)).Nodup) :
    (erase k fs).Perm (fs.filter (·.1 ≠ k)) := by
  by_cases hk : k ∈ fs.map (·.1)
  · obtain ⟨v, hv⟩ := Option.ne_none_iff_exists'.mp fun hnone => lookup_eq_none_iff.mp hnone hk
    obtain ⟨l, r, rfl, -⟩ := List.lookup_eq_some_iff.mp hv
    rw [List.map_append, List.map_cons, List.nodup_append, List.nodup_cons] at hnodup
    have hl : k ∉ l.map (·.1) := fun hmem => hnodup.2.2 k hmem k List.mem_cons_self rfl
    have hkeep : ∀ gs : Fields, k ∉ gs.map (·.1) → gs.filter (·.1 ≠ k) = gs := by
      intro gs hgs
      refine List.filter_eq_self.mpr fun f hf => ?_
      rw [decide_eq_true_eq]
      rintro rfl
      exact hgs (List.mem_map_of_mem hf)
    rw [erase_append_cons hl, List.filter_append, hkeep l hl, List.filter_cons_of_neg (by simp),
      hkeep r hnodup.2.1.1]
    exact (perm_behind r).append_left l
  · rw [erase_of_notMem hk, List.filter_eq_self.mpr]
    intro f hf
    rw [decide_eq_true_eq]
    rintro rfl
    exact hk (List.mem_map_of_mem hf)

theorem nodup_erase (hnodup : (fs.map (·.1)).Nodup) : ((erase k fs).map (·.1)).Nodup := by
  refine ((perm_erase hnodup).map _).nodup_iff.mpr ?_
  exact (List.filter_sublist.map _).nodup hnodup

theorem mem_keys_erase (hnodup : (fs.map (·.1)).Nodup) :
    j ∈ (erase k fs).map (·.1) ↔ j ∈ fs.map (·.1) ∧ j ≠ k := by
  rw [((perm_erase hnodup).map _).mem_iff]
  simp only [List.mem_map, List.mem_filter, decide_eq_true_eq]
  constructor
  · rintro ⟨f, ⟨hf, hne⟩, rfl⟩
    exact ⟨⟨f, hf, rfl⟩, hne⟩
  · rintro ⟨⟨f, hf, rfl⟩, hne⟩
    exact ⟨f, ⟨hf, hne⟩, rfl⟩

theorem lookup_erase (hnodup : (fs.map (·.1)).Nodup) :
    (erase k fs).lookup j = if j = k then none else fs.lookup j := by
  split
  · rename_i hj
    rw [lookup_eq_none_iff, mem_keys_erase hnodup]
    exact fun h => h.2 hj
  · rename_i hj
    cases h : fs.lookup j with
    | none =>
      rw [lookup_eq_none_iff] at h ⊢
      rw [mem_keys_erase hnodup]
      exact fun hmem => h hmem.1
    | some v =>
      refine lookup_of_mem (nodup_erase hnodup) ((perm_erase hnodup).mem_iff.mpr ?_)
      exact List.mem_filter.mpr ⟨mem_of_lookup h, decide_eq_true hj⟩

end Fields

end RelQuery

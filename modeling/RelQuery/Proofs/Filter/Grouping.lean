import RelQuery.Filter.Merge

/-!
# Grouping conjuncts

A merge groups the conjuncts of each side by key. A group holds exactly the conjuncts on its key, in
order, and no key has two groups.
-/

namespace RelQuery.Filter

/-- The conjuncts of a filter on a key. -/
def onKey (f : Filter) (key : MergeKey) : List Filter :=
  f.conjuncts.filter (·.mergeKey? = some key)

/-- The conjuncts of a filter that have no key. -/
def unkeyed (f : Filter) : List Filter := f.conjuncts.filter (·.mergeKey? = none)

/-- The keys of a filter's conjuncts. -/
def keys (f : Filter) : List MergeKey := f.conjuncts.filterMap mergeKey?

variable {f g : Filter} {fs cs : List Filter} {key k : MergeKey}
  {es : List (MergeKey × List Filter)}

theorem mem_onKey : g ∈ f.onKey key ↔ g ∈ f.conjuncts ∧ g.mergeKey? = some key := by
  simp [onKey]

theorem mem_unkeyed : g ∈ f.unkeyed ↔ g ∈ f.conjuncts ∧ g.mergeKey? = none := by
  simp [unkeyed]

theorem mem_keys : key ∈ f.keys ↔ f.onKey key ≠ [] := by
  simp [keys, onKey, List.filter_eq_nil_iff]

/-! ## Keys -/

theorem commonKey?_eq_some :
    commonKey? fs = some key ↔ fs ≠ [] ∧ ∀ f ∈ fs, f.mergeKey? = some key := by
  induction fs with
  | nil => simp [commonKey?]
  | cons f fs ih =>
    cases fs with
    | nil => simp [commonKey?]
    | cons g gs =>
      rw [commonKey?, List.forall_mem_cons]
      · constructor
        · intro h
          split at h
          · rename_i heq
            exact ⟨List.cons_ne_nil _ _, h, (ih.mp (heq ▸ h)).2⟩
          · cases h
        · rintro ⟨-, hf, hgs⟩
          rw [if_pos (hf.trans (ih.mpr ⟨List.cons_ne_nil _ _, hgs⟩).symm), hf]
      · exact List.cons_ne_nil _ _

namespace Grouped

theorem lookup_cons_if : ((key, fs) :: es).lookup k = if k = key then some fs else es.lookup k := by
  by_cases h : k = key
  · simp [h]
  · simp [List.lookup_cons, beq_eq_false_iff_ne.mpr h, h]

theorem lookup_addKeyed : (addKeyed key f es).lookup k =
    if k = key then some ((es.lookup key).getD [] ++ [f]) else es.lookup k := by
  induction es with
  | nil => simp [addKeyed, lookup_cons_if]
  | cons e es ih =>
    obtain ⟨l, fs⟩ := e
    by_cases hl : l = key
    · by_cases hk : k = key <;> simp [addKeyed, lookup_cons_if, hl, hk]
    · by_cases hk : k = l
      · simp [addKeyed, hl, hk]
      · simp [addKeyed, lookup_cons_if, hl, hk, Ne.symm hl, ih]

theorem keys_addKeyed : (addKeyed key f es).map (·.1) =
    if key ∈ es.map (·.1) then es.map (·.1) else es.map (·.1) ++ [key] := by
  induction es with
  | nil => rfl
  | cons e es ih =>
    by_cases he : e.1 = key
    · simp [addKeyed, he]
    · simp only [addKeyed, he, if_false, List.map_cons, ih, List.mem_cons, Ne.symm he, false_or]
      split <;> rfl

theorem nodup_addKeyed (h : (es.map (·.1)).Nodup) : ((addKeyed key f es).map (·.1)).Nodup := by
  rw [keys_addKeyed]
  split
  · exact h
  · rename_i hk
    refine List.nodup_append.mpr ⟨h, List.pairwise_singleton _ key, ?_⟩
    intro a ha b hb hab
    cases List.mem_singleton.mp hb
    exact hk (hab ▸ ha)

/-- A grouping of conjuncts: each key once, with all conjuncts on it in order, and the others. -/
structure Of (cs : List Filter) (g : Grouped) : Prop where
  nodup : (g.keyed.map (·.1)).Nodup
  lookup : ∀ key, (g.keyed.lookup key).getD [] = cs.filter (·.mergeKey? = some key)
  ne_nil : ∀ {key fs}, g.keyed.lookup key = some fs → fs ≠ []
  free : g.free = cs.filter (·.mergeKey? = none)

theorem Of.add {g : Grouped} (H : Of cs g) (f : Filter) : Of (cs ++ [f]) (g.add f) := by
  unfold Grouped.add
  cases hf : f.mergeKey? with
  | none =>
    refine ⟨H.nodup, fun key => ?_, H.ne_nil, ?_⟩
    · simp [H.lookup, hf]
    · simp [H.free, hf]
  | some key =>
    refine ⟨nodup_addKeyed H.nodup, fun k => ?_, fun {k fs} h => ?_, ?_⟩
    · rw [lookup_addKeyed]
      by_cases hk : k = key
      · simp [hk, hf, H.lookup]
      · simp [hk, hf, H.lookup, Ne.symm hk]
    · rw [lookup_addKeyed] at h
      split at h
      · cases h
        simp
      · exact H.ne_nil h
    · simp [H.free, hf]

theorem Of.foldl {g : Grouped} (H : Of cs g) (fs : List Filter) :
    Of (cs ++ fs) (fs.foldl Grouped.add g) := by
  induction fs generalizing cs g with
  | nil => simpa using H
  | cons f fs ih => simpa using ih (H.add f)

end Grouped

theorem grouped_of (f : Filter) : Grouped.Of f.conjuncts f.grouped := by
  have H : Grouped.Of [] {} := ⟨List.nodup_nil, fun _ => rfl, (nomatch ·), rfl⟩
  exact H.foldl f.conjuncts

theorem lookup_grouped : f.grouped.keyed.lookup key =
    if f.onKey key = [] then none else some (f.onKey key) := by
  have H := grouped_of f
  have h := H.lookup key
  cases hl : f.grouped.keyed.lookup key with
  | none =>
    rw [hl] at h
    have hn : f.onKey key = [] := h.symm
    rw [if_pos hn]
  | some fs =>
    rw [hl] at h
    have hfs : fs = f.onKey key := h
    rw [if_neg (hfs ▸ H.ne_nil hl), hfs]

theorem lookup_of_mem (h : (es.map (·.1)).Nodup) (hm : (key, fs) ∈ es) :
    es.lookup key = some fs := by
  induction es with
  | nil => cases hm
  | cons e es ih =>
    obtain ⟨l, gs⟩ := e
    rw [Grouped.lookup_cons_if]
    simp only [List.map_cons, List.nodup_cons] at h
    rcases List.mem_cons.mp hm with heq | hm
    · cases heq
      simp
    · have hne : key ≠ l := fun he => h.1 (List.mem_map.mpr ⟨(key, fs), hm, he⟩)
      rw [if_neg hne, ih h.2 hm]

theorem mem_grouped : (key, fs) ∈ f.grouped.keyed ↔ fs = f.onKey key ∧ f.onKey key ≠ [] := by
  constructor
  · intro h
    have h := lookup_of_mem (grouped_of f).nodup h
    rw [lookup_grouped] at h
    split at h
    · cases h
    · exact ⟨(Option.some.inj h).symm, ‹_›⟩
  · rintro ⟨rfl, h⟩
    obtain ⟨l₁, l₂, hl, -⟩ := List.lookup_eq_some_iff.mp (lookup_grouped.trans (if_neg h))
    rw [hl]
    simp

theorem free_grouped : f.grouped.free = f.unkeyed := (grouped_of f).free

theorem any_grouped : f.grouped.keyed.any (·.1 = key) = true ↔ key ∈ f.keys := by
  simp only [List.any_eq_true, decide_eq_true_eq, Prod.exists, mem_grouped, mem_keys]
  constructor
  · rintro ⟨k, fs, ⟨-, h⟩, rfl⟩
    exact h
  · intro h
    exact ⟨key, f.onKey key, ⟨rfl, h⟩, rfl⟩

end RelQuery.Filter

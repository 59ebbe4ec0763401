import RelQuery.Proofs.Filter.Flat

/-!
# Merging three filters

A merge says of a key what its sides say, joined as alternatives. Merging it again finds those
alternatives on their key, as long as each side has just one conjunct there: a conjunction of two
has no key, and an alternative with it has none either. So filters without such conjuncts can be
merged in any order.
-/

namespace RelQuery.Filter

universe u

/-- No key has two different conjuncts. -/
def KeysOnce (f : Filter) : Prop := ∀ key, ∀ g ∈ f.onKey key, ∀ h ∈ f.onKey key, g = h

variable {a b f g : Filter} {fs gs : List Filter} {key : MergeKey} {k : Connective}

/-! ## Keys of alternatives -/

theorem connective?_of_key (h : f.mergeKey? = some key) : f.connective? ≠ some .and := by
  cases f with
  | logical k fs =>
    cases k with
    | and => cases h
    | or => nofun
  | _ => nofun

/-- What a filter with a key contributes to a disjunction has the key. -/
theorem key_of_mem_parts (h : f.mergeKey? = some key) (hg : g ∈ parts .or f) :
    g.mergeKey? = some key := by
  by_cases hor : f.connective? = some .or
  · cases f <;> cases hor
    exact (commonKey?_eq_some.mp h).2 g hg
  · rw [parts_of_ne hor] at hg
    cases List.mem_singleton.mp hg
    exact h

theorem parts_ne_nil_of_key (h : f.mergeKey? = some key) : parts .or f ≠ [] := by
  by_cases hor : f.connective? = some .or
  · cases f <;> cases hor
    exact (commonKey?_eq_some.mp h).1
  · rw [parts_of_ne hor]
    nofun

/-- A disjunction of filters with one key has the key. -/
theorem mergeKey?_any (hne : fs ≠ []) (h : ∀ f ∈ fs, f.mergeKey? = some key) :
    (any fs).mergeKey? = some key := by
  have hkey : ∀ g ∈ distinct (fs.flatMap (parts .or)), g.mergeKey? = some key := by
    intro g hg
    obtain ⟨f, hf, hg⟩ := List.mem_flatMap.mp (mem_distinct hg)
    exact key_of_mem_parts (h f hf) hg
  have hsome : distinct (fs.flatMap (parts .or)) ≠ [] := by
    obtain ⟨f, hf⟩ := List.exists_mem_of_ne_nil fs hne
    obtain ⟨g, hg⟩ := List.exists_mem_of_ne_nil _ (parts_ne_nil_of_key (h f hf))
    obtain ⟨g', hg', -⟩ := exists_same_distinct (List.mem_flatMap.mpr ⟨f, hf, hg⟩)
    exact List.ne_nil_of_mem hg'
  unfold any combine
  split
  · rename_i g heq
    exact hkey g (heq ▸ List.mem_cons_self)
  · exact commonKey?_eq_some.mpr ⟨hsome, hkey⟩

/-! ## One conjunct on each key -/

theorem all_of_forall_eq (h : ∀ g ∈ fs, g = f) (hf : f ∈ fs) (hne : f.connective? ≠ some .and) :
    all fs = f := by
  have hparts : fs.flatMap (parts .and) = fs :=
    flatMap_parts_of_ne fun g hg => (h g hg).symm ▸ hne
  unfold all combine
  rw [hparts, distinct_of_forall_eq h hf]

/-- What a filter says of a key all in all is its one conjunct. -/
theorem KeysOnce.mergeKey?_all (h : f.KeysOnce) (hne : f.onKey key ≠ []) :
    (all (f.onKey key)).mergeKey? = some key := by
  obtain ⟨g, hg⟩ := List.exists_mem_of_ne_nil _ hne
  have hkey := (mem_onKey.mp hg).2
  rw [all_of_forall_eq (fun g' hg' => h key g' hg' g hg) hg (connective?_of_key hkey)]
  exact hkey

/-- The group of a key has the key. -/
theorem mergeKey?_of_group (ha : a.KeysOnce) (hb : b.KeysOnce) (h : g ∈ group a b key) :
    g.mergeKey? = some key := by
  unfold group at h
  split at h
  · exact (mem_onKey.mp h).2
  · split at h
    · exact (mem_onKey.mp h).2
    · unfold alternatives at h
      split at h
      · exact (mem_onKey.mp h).2
      · cases List.mem_singleton.mp h
        have hsides : ∀ f ∈ [all (a.onKey key), all (b.onKey key)], f.mergeKey? = some key :=
          List.forall_mem_cons.mpr ⟨ha.mergeKey?_all ‹_›,
            List.forall_mem_singleton.mpr (hb.mergeKey?_all ‹_›)⟩
        exact mergeKey?_any nofun hsides

theorem group_once (ha : a.KeysOnce) (hb : b.KeysOnce) (hf : f ∈ group a b key)
    (hg : g ∈ group a b key) : f = g := by
  unfold group at hf hg
  split at hf
  · rw [if_pos ‹_›] at hg
    exact ha key f hf g hg
  · rw [if_neg ‹_›] at hg
    split at hf
    · rw [if_pos ‹_›] at hg
      exact hb key f hf g hg
    · rw [if_neg ‹_›] at hg
      unfold alternatives at hf hg
      split at hf
      · rw [if_pos ‹_›] at hg
        exact ha key f hf g hg
      · rw [if_neg ‹_›] at hg
        exact (List.mem_singleton.mp hf).trans (List.mem_singleton.mp hg).symm

/-! ## Conjuncts of the merge -/

theorem conjuncts_all (h : ∀ g ∈ gs, g.connective? ≠ some .and) :
    (all gs).conjuncts = distinct gs := by
  unfold all combine
  rw [flatMap_parts_of_ne h]
  split
  · rename_i f heq
    have hf : f ∈ distinct gs := heq ▸ List.mem_cons_self
    exact (parts_of_ne (h f (mem_distinct hf))).trans heq.symm
  · rfl

/-- A flat filter with at most one conjunct on each key. -/
structure Single (f : Filter) : Prop where
  flat : f.Flat
  once : f.KeysOnce

variable {α : Type u} [Lattice α] [BoundedOrder α] [Compl α] {v : Valuation α} {x : α}

section
variable (ha : a.Single) (hb : b.Single)
include ha hb

theorem conjuncts_merge : (all (mergedParts a b)).conjuncts = distinct (mergedParts a b) := by
  refine conjuncts_all fun g hg => ?_
  rcases mergedPart_of_mem hg with ⟨key, hg⟩ | hg | hg
  · exact connective?_of_key (mergeKey?_of_group ha.once hb.once hg)
  · exact (ha.flat.conjuncts (mem_unkeyed.mp hg).1).1
  · exact (hb.flat.conjuncts (mem_unkeyed.mp hg).1).1

theorem mergedPart_of_conjunct (h : g ∈ (all (mergedParts a b)).conjuncts) :
    MergedPart a b g := by
  rw [conjuncts_merge ha hb] at h
  exact mergedPart_of_mem (mem_distinct h)

/-- Of everything that a merge says there is a conjunct with its key and its value. -/
theorem exists_conjunct (v : Valuation α) (h : MergedPart a b g) :
    ∃ f ∈ (all (mergedParts a b)).conjuncts, f.mergeKey? = g.mergeKey? ∧ f.eval v = g.eval v := by
  rw [conjuncts_merge ha hb]
  obtain ⟨f, hf, hgf⟩ := exists_same_mergedParts h
  obtain ⟨f', hf', hff'⟩ := exists_same_distinct hf
  exact ⟨f', hf', ((mergeKey?_congr hgf).trans (mergeKey?_congr hff')).symm,
    ((eval_congr hgf).trans (eval_congr hff')).symm⟩

theorem mem_group_of_onKey (h : g ∈ (all (mergedParts a b)).onKey key) : g ∈ group a b key := by
  obtain ⟨hg, hkey⟩ := mem_onKey.mp h
  rcases mergedPart_of_conjunct ha hb hg with ⟨key', hg⟩ | hg | hg
  · cases hkey.symm.trans (mergeKey?_of_group ha.once hb.once hg)
    exact hg
  · cases hkey.symm.trans (mem_unkeyed.mp hg).2
  · cases hkey.symm.trans (mem_unkeyed.mp hg).2

theorem exists_onKey (v : Valuation α) (h : g ∈ group a b key) :
    ∃ f ∈ (all (mergedParts a b)).onKey key, f.eval v = g.eval v := by
  obtain ⟨f, hf, hkey, hval⟩ := exists_conjunct ha hb v (.inl ⟨key, h⟩)
  exact ⟨f, mem_onKey.mpr ⟨hf, hkey.trans (mergeKey?_of_group ha.once hb.once h)⟩, hval⟩

theorem Single.merge : (all (mergedParts a b)).Single where
  flat := .combine fun _ hg => kept_flat.mergedPart ha.flat hb.flat (mergedPart_of_mem hg)
  once _ _ hg _ hh := group_once ha.once hb.once (mem_group_of_onKey ha hb hg)
    (mem_group_of_onKey ha hb hh)

end

theorem Single.merge? (ha : a.Single) (hb : b.Single) (h : merge? (some a) (some b) = some f) :
    f.Single := by
  unfold Filter.merge? at h
  dsimp only at h
  split at h
  · cases h
    exact ha
  · cases proper?_eq_some h
    exact ha.merge hb

/-! ## Opinions -/

/-- What a filter that may be missing says of a key, if it says anything. -/
def opinion (v : Valuation α) (f? : Option Filter) (key : MergeKey) : Option α :=
  f?.bind fun f =>
    if f.onKey key = [] then none else some (Connective.and.fold ((f.onKey key).map (eval v)))

/-- What a filter that may be missing says without a key. -/
def remark (v : Valuation α) (f? : Option Filter) : α :=
  Connective.and.fold ((f?.elim [] unkeyed).map (eval v))

/-- A filter is the conjunction of what it says of each key and without one. -/
theorem le_evalOption_iff {f? : Option Filter} : x ≤ evalOption v f? ↔
    x ≤ remark v f? ∧ ∀ key, ∀ y ∈ opinion v f? key, x ≤ y := by
  cases f? with
  | none => simp [evalOption, remark, opinion, Connective.unit]
  | some f =>
    have hop : (∀ key, ∀ y ∈ opinion v (some f) key, x ≤ y) ↔
        ∀ key ∈ f.keys, x ≤ Connective.and.fold ((f.onKey key).map (eval v)) := by
      refine forall_congr' fun key => ?_
      by_cases h : f.onKey key = [] <;> simp [opinion, mem_keys, h]
    rw [hop]
    exact le_eval_iff.trans (and_congr_left' le_conj_iff.symm)

theorem opinion_proper? : opinion v f.proper? key = opinion v (some f) key := by
  rcases proper?_eq f with h | ⟨h, rfl⟩ <;> rw [h]
  rfl

theorem remark_proper? : remark v f.proper? = remark v (some f) := by
  rcases proper?_eq f with h | ⟨h, rfl⟩ <;> rw [h]
  rfl

/-! ### Of equal filters -/

theorem onKey_eq_nil_of_same (h : same f g = true) : f.onKey key = [] ↔ g.onKey key = [] := by
  rw [← List.length_eq_zero_iff, ← List.length_eq_zero_iff, (forall₂_onKey h key).length_eq]

theorem opinion_of_same (h : same f g = true) :
    opinion v (some f) key = opinion v (some g) key := by
  simp only [opinion, Option.bind_some, onKey_eq_nil_of_same h, map_eval_eq (forall₂_onKey h key)]

theorem remark_of_same (h : same f g = true) : remark v (some f) = remark v (some g) :=
  congrArg Connective.and.fold (map_eval_eq (forall₂_unkeyed h))

/-! ### Of a merge -/

theorem opinion_eq_none (h : f.onKey key = []) : opinion v (some f) key = none := by
  simp [opinion, h]

theorem opinion_eq_some (h : f.onKey key ≠ []) : opinion v (some f) key =
    some (Connective.and.fold ((f.onKey key).map (eval v))) := by
  simp [opinion, h]

section
variable (ha : a.Single) (hb : b.Single)
include ha hb

theorem onKey_merge_eq_nil :
    (all (mergedParts a b)).onKey key = [] ↔ group a b key = [] := by
  simp only [List.eq_nil_iff_forall_not_mem]
  constructor
  · intro h g hg
    -- The value of a conjunct does not matter here, only that there is one.
    have v : Valuation Bool := ⟨fun _ => true, fun _ => true, fun _ => true, fun _ => rfl⟩
    obtain ⟨f, hf, -⟩ := exists_onKey ha hb v hg
    exact h f hf
  · intro h g hg
    exact h g (mem_group_of_onKey ha hb hg)

theorem conj_onKey_merge :
    Connective.and.fold (((all (mergedParts a b)).onKey key).map (eval v)) =
      Connective.and.fold ((group a b key).map (eval v)) := by
  refine le_antisymm (le_conj_iff.mpr fun g hg => ?_) (le_conj_iff.mpr fun g hg => ?_)
  · obtain ⟨f, hf, heq⟩ := exists_onKey ha hb v hg
    exact heq ▸ Connective.fold_and_le (List.mem_map_of_mem hf)
  · exact Connective.fold_and_le (List.mem_map_of_mem (mem_group_of_onKey ha hb hg))

theorem opinion_merge : opinion v (some (all (mergedParts a b))) key =
    Option.merge (· ⊔ ·) (opinion v (some a) key) (opinion v (some b) key) := by
  by_cases hkb : b.onKey key = []
  · have hgroup : group a b key = a.onKey key := if_pos hkb
    rw [opinion_eq_none hkb, Option.merge_none_right]
    simp only [opinion, Option.bind_some, onKey_merge_eq_nil ha hb, conj_onKey_merge ha hb, hgroup]
  · by_cases hka : a.onKey key = []
    · have hgroup : group a b key = b.onKey key := (if_neg hkb).trans (if_pos hka)
      rw [opinion_eq_none hka, Option.merge_none_left]
      simp only [opinion, Option.bind_some, onKey_merge_eq_nil ha hb, conj_onKey_merge ha hb,
        hgroup]
    · have hgroup : group a b key = alternatives (a.onKey key) (b.onKey key) :=
        (if_neg hkb).trans (if_neg hka)
      have hne : alternatives (a.onKey key) (b.onKey key) ≠ [] := by
        unfold alternatives
        split
        · exact hka
        · nofun
      rw [opinion_eq_some hka, opinion_eq_some hkb]
      rw [opinion_eq_some (by rwa [ne_eq, onKey_merge_eq_nil ha hb, hgroup]),
        conj_onKey_merge ha hb, hgroup, conj_alternatives]
      rfl

theorem remark_merge : remark v (some (all (mergedParts a b))) =
    remark v (some a) ⊓ remark v (some b) := by
  refine eq_of_forall_le_iff fun x => ?_
  simp only [remark, Option.elim_some, le_inf_iff, le_conj_iff]
  constructor
  · intro h
    have hpart : ∀ g, g.mergeKey? = none → MergedPart a b g → x ≤ g.eval v := by
      intro g hkey hg
      obtain ⟨f, hf, hkey', heq⟩ := exists_conjunct ha hb v hg
      exact heq ▸ h f (mem_unkeyed.mpr ⟨hf, hkey'.trans hkey⟩)
    exact ⟨fun g hg => hpart g (mem_unkeyed.mp hg).2 (.inr (.inl hg)),
      fun g hg => hpart g (mem_unkeyed.mp hg).2 (.inr (.inr hg))⟩
  · rintro ⟨hxa, hxb⟩ g hg
    obtain ⟨hg, hkey⟩ := mem_unkeyed.mp hg
    rcases mergedPart_of_conjunct ha hb hg with ⟨key, hg⟩ | hg | hg
    · cases hkey.symm.trans (mergeKey?_of_group ha.once hb.once hg)
    · exact hxa g hg
    · exact hxb g hg

end

/-! ## Three filters -/

variable {a? b? c? : Option Filter}

/-- A filter that may be missing is single. -/
def AllSingle (f? : Option Filter) : Prop := ∀ f, f? = some f → f.Single

theorem AllSingle.merge? (ha : AllSingle a?) (hb : AllSingle b?) : AllSingle (merge? a? b?) :=
  forall_merge? (fun hf hg h => hf.merge? hg h) ha hb

/-- A merge says of a key what either side says. -/
theorem opinion_merge? (ha : AllSingle a?) (hb : AllSingle b?) : opinion v (merge? a? b?) key =
    Option.merge (· ⊔ ·) (opinion v a? key) (opinion v b? key) := by
  cases a? with
  | none => exact Option.merge_none_left.symm
  | some a =>
    cases b? with
    | none => exact Option.merge_none_right.symm
    | some b =>
      unfold Filter.merge?
      dsimp only
      split
      · rename_i h
        rw [← opinion_of_same h]
        cases opinion v (some a) key <;> simp [Option.merge]
      · rw [opinion_proper?, opinion_merge (ha a rfl) (hb b rfl)]

/-- A merge says without a key what both sides say. -/
theorem remark_merge? (ha : AllSingle a?) (hb : AllSingle b?) :
    remark v (merge? a? b?) = remark v a? ⊓ remark v b? := by
  cases a? with
  | none => exact (top_inf_eq _).symm
  | some a =>
    cases b? with
    | none => exact (inf_top_eq _).symm
    | some b =>
      unfold Filter.merge?
      dsimp only
      split
      · rename_i h
        rw [← remark_of_same h, inf_idem]
      · rw [remark_proper?, remark_merge (ha a rfl) (hb b rfl)]

/-- Filters with at most one conjunct on each key can be merged in any order. -/
theorem evalOption_merge?_assoc (ha : AllSingle a?) (hb : AllSingle b?) (hc : AllSingle c?) :
    evalOption v (merge? (merge? a? b?) c?) = evalOption v (merge? a? (merge? b? c?)) := by
  refine eq_of_forall_le_iff fun x => ?_
  rw [le_evalOption_iff, le_evalOption_iff, remark_merge? (ha.merge? hb) hc, remark_merge? ha hb,
    remark_merge? ha (hb.merge? hc), remark_merge? hb hc, inf_assoc]
  refine and_congr_right' (forall_congr' fun key => ?_)
  have hassoc : Std.Associative (Option.merge (α := α) (· ⊔ ·)) := inferInstance
  rw [opinion_merge? (ha.merge? hb) hc, opinion_merge? ha hb, opinion_merge? ha (hb.merge? hc),
    opinion_merge? hb hc, hassoc.assoc]

end RelQuery.Filter

import RelQuery.Proofs.Filter.Grouping
import RelQuery.Proofs.Filter.Value

/-!
# The value of a merge

Two filters are merged key by key: what only one says of a key is kept, and what both say becomes an
alternative. `keyValue` is what the merge says of one key, read off the conjuncts of both sides, and
the merge is the conjunction of it over all keys, with the conjuncts that have none.
-/

namespace RelQuery.Filter

universe u

variable {f g : Filter} {fs gs : List Filter} {key : MergeKey}

/-! ## Equal filters -/

theorem commonKey?_congr (h : List.Forall₂ (fun f g => f.mergeKey? = g.mergeKey?) fs gs) :
    commonKey? fs = commonKey? gs := by
  induction h with
  | nil => rfl
  | cons h hs ih =>
    cases hs with
    | nil => exact h
    | cons h' hs => simp only [commonKey?, h, ih]

/-- Equal filters have one key. -/
theorem mergeKey?_congr (h : same f g = true) : f.mergeKey? = g.mergeKey? := by
  induction f generalizing g with
  | comparison a =>
    cases g with
    | comparison b =>
      change (a.path == b.path && a.operator == b.operator && a.operand == b.operand &&
        a.type == b.type && a.negated == b.negated) = true at h
      simp only [Bool.and_eq_true, beq_iff_eq] at h
      simp only [mergeKey?, h.1.1.1.1, h.1.1.1.2, h.2]
    | _ => cases h
  | computed a =>
    cases g <;> simp [same] at h
    rw [h]
  | raw a =>
    cases g <;> simp [same] at h
    rw [h]
  | logical k fs ih =>
    cases g <;> simp only [same, Bool.and_eq_true, beq_iff_eq, Bool.false_eq_true] at h
    obtain ⟨rfl, h⟩ := h
    cases k with
    | and => rfl
    | or => exact commonKey?_congr (forall₂_of_sameAll ih h)
  | not f ih =>
    cases g <;> simp only [same, Bool.false_eq_true] at h
    rfl

theorem forall₂_conjuncts (h : same f g = true) :
    List.Forall₂ (same · · = true) f.conjuncts g.conjuncts := by
  cases f with
  | logical k fs =>
    cases g <;> simp only [same, Bool.and_eq_true, beq_iff_eq, Bool.false_eq_true] at h
    obtain ⟨rfl, h⟩ := h
    cases k with
    | and => exact forall₂_of_sameAll (fun _ _ _ h => h) h
    | or => exact .cons (by simp [same, h]) .nil
  | _ =>
    cases g with
    | logical => cases h
    | _ => exact .cons h .nil

theorem forall₂_unkeyed (h : same f g = true) :
    List.Forall₂ (same · · = true) f.unkeyed g.unkeyed :=
  List.rel_filter (fun _ _ h => by simp [mergeKey?_congr h]) (forall₂_conjuncts h)

theorem forall₂_onKey (h : same f g = true) (key : MergeKey) :
    List.Forall₂ (same · · = true) (f.onKey key) (g.onKey key) :=
  List.rel_filter (fun _ _ h => by simp [mergeKey?_congr h]) (forall₂_conjuncts h)

/-! ## The value of the merge -/

variable {α : Type u} [Lattice α] [BoundedOrder α] [Compl α] {v : Valuation α} {x : α}
  {a b : Filter}

theorem le_conj_iff : x ≤ Connective.and.fold (fs.map (eval v)) ↔ ∀ f ∈ fs, x ≤ f.eval v := by
  simp [Connective.le_fold_and]

theorem conj_eq_of_sameSet (h : sameSet fs gs = true) :
    Connective.and.fold (fs.map (eval v)) = Connective.and.fold (gs.map (eval v)) := by
  simp only [sameSet, Bool.and_eq_true, List.all_eq_true] at h
  obtain ⟨⟨-, hfs⟩, hgs⟩ := h
  refine le_antisymm (le_conj_iff.mpr fun g hg => ?_) (le_conj_iff.mpr fun f hf => ?_)
  · exact Connective.fold_and_le (mem_eval_of_contains (hgs g hg))
  · exact Connective.fold_and_le (mem_eval_of_contains (hfs f hf))

theorem conj_alternatives : Connective.and.fold ((alternatives fs gs).map (eval v)) =
    Connective.and.fold (fs.map (eval v)) ⊔ Connective.and.fold (gs.map (eval v)) := by
  unfold alternatives
  split
  · rename_i h
    rw [← conj_eq_of_sameSet h, sup_idem]
  · simp [Connective.apply, Connective.unit]

theorem map_eval_eq (h : List.Forall₂ (same · · = true) fs gs) :
    fs.map (eval v) = gs.map (eval v) :=
  map_eq_of_forall₂ (h.imp fun _ _ => eval_congr)

/-- A filter is the conjunction of what it says of each key and of its conjuncts without one. -/
theorem le_eval_iff : x ≤ f.eval v ↔ (∀ g ∈ f.unkeyed, x ≤ g.eval v) ∧
    ∀ key ∈ f.keys, x ≤ Connective.and.fold ((f.onKey key).map (eval v)) := by
  rw [← fold_eval_conjuncts, le_conj_iff]
  constructor
  · intro h
    exact ⟨fun g hg => h g (mem_unkeyed.mp hg).1,
      fun key _ => le_conj_iff.mpr fun g hg => h g (mem_onKey.mp hg).1⟩
  · rintro ⟨hu, hk⟩ g hg
    cases hkey : g.mergeKey? with
    | none => exact hu g (mem_unkeyed.mpr ⟨hg, hkey⟩)
    | some key =>
      have hmem := mem_onKey.mpr ⟨hg, hkey⟩
      exact le_conj_iff.mp (hk key (mem_keys.mpr (List.ne_nil_of_mem hmem))) g hmem

/-! ### One key -/

/-- What the merge of two filters says of a key: what one side says, if the other says nothing, else
what either says. -/
def keyValue (v : Valuation α) (a b : Filter) (key : MergeKey) : α :=
  match a.onKey key, b.onKey key with
  | fs, [] => Connective.and.fold (fs.map (eval v))
  | [], gs => Connective.and.fold (gs.map (eval v))
  | fs, gs => Connective.and.fold (fs.map (eval v)) ⊔ Connective.and.fold (gs.map (eval v))

theorem keyValue_comm : keyValue v a b key = keyValue v b a key := by
  unfold keyValue
  cases a.onKey key <;> cases b.onKey key <;> simp [sup_comm]

theorem keyValue_left (h : b.onKey key = []) :
    keyValue v a b key = Connective.and.fold ((a.onKey key).map (eval v)) := by
  simp [keyValue, h]

theorem keyValue_right (h : a.onKey key = []) :
    keyValue v a b key = Connective.and.fold ((b.onKey key).map (eval v)) := by
  rw [keyValue_comm, keyValue_left h]

theorem keyValue_both (ha : a.onKey key ≠ []) (hb : b.onKey key ≠ []) :
    keyValue v a b key = Connective.and.fold ((a.onKey key).map (eval v)) ⊔
      Connective.and.fold ((b.onKey key).map (eval v)) := by
  unfold keyValue
  split
  · rename_i h
    exact (hb h).elim
  · rename_i h _
    exact (ha h).elim
  · rfl

theorem keyValue_of_same (h : same a b = true) :
    keyValue v a b key = Connective.and.fold ((a.onKey key).map (eval v)) := by
  have heq := map_eval_eq (v := v) (forall₂_onKey h key)
  by_cases ha : a.onKey key = []
  · rw [keyValue_right ha, heq]
  · by_cases hb : b.onKey key = []
    · exact keyValue_left hb
    · rw [keyValue_both ha hb, heq, sup_idem]

/-! ### All keys -/

theorem le_conj_flatMap {β : Type} {as : List β} {F : β → List Filter} :
    x ≤ Connective.and.fold ((as.flatMap F).map (eval v)) ↔
      ∀ a ∈ as, x ≤ Connective.and.fold ((F a).map (eval v)) := by
  simp only [le_conj_iff, List.mem_flatMap]
  constructor
  · intro h a ha f hf
    exact h f ⟨a, ha, hf⟩
  · rintro h f ⟨a, ha, hf⟩
    exact h a ha f hf

theorem forall_keys_iff {P : MergeKey → Prop} :
    (∀ key ∈ f.keys, P key) ↔ ∀ e ∈ f.grouped.keyed, P e.1 := by
  constructor
  · rintro h ⟨key, fs⟩ he
    exact h key (mem_keys.mpr (mem_grouped.mp he).2)
  · intro h key hkey
    exact h (key, f.onKey key) (mem_grouped.mpr ⟨rfl, mem_keys.mp hkey⟩)

theorem le_joinKeyed :
    x ≤ Connective.and.fold ((joinKeyed a.grouped.keyed b.grouped.keyed).map (eval v)) ↔
      ∀ key ∈ a.keys, x ≤ keyValue v a b key := by
  unfold joinKeyed
  rw [le_conj_flatMap, forall_keys_iff]
  refine forall₂_congr fun ⟨key, fs⟩ he => ?_
  obtain ⟨rfl, ha⟩ := mem_grouped.mp he
  dsimp only
  rw [lookup_grouped]
  by_cases hb : b.onKey key = []
  · rw [if_pos hb, keyValue_left hb]
  · rw [if_neg hb, keyValue_both ha hb, conj_alternatives]

theorem le_otherKeyed :
    x ≤ Connective.and.fold ((otherKeyed a.grouped.keyed b.grouped.keyed).map (eval v)) ↔
      ∀ key ∈ b.keys, key ∉ a.keys → x ≤ keyValue v a b key := by
  unfold otherKeyed
  rw [le_conj_flatMap, forall_keys_iff]
  refine forall₂_congr fun ⟨key, gs⟩ he => ?_
  obtain ⟨rfl, -⟩ := mem_grouped.mp he
  dsimp only
  by_cases ha : key ∈ a.keys
  · rw [if_pos (any_grouped.mpr ha)]
    exact iff_of_true le_top (absurd ha)
  · rw [if_neg (any_grouped.not.mpr ha), keyValue_right (not_ne_iff.mp (mem_keys.not.mp ha))]
    exact ⟨fun h _ => h, fun h => h ha⟩

/-- What a merge says: the conjuncts without a key, and what it says of each key. -/
def mergedValue (v : Valuation α) (a b : Filter) : α :=
  Connective.and.fold ((a.unkeyed ++ b.unkeyed).map (eval v)) ⊓
    Connective.and.fold ((a.keys ++ b.keys).map (keyValue v a b))

theorem le_mergedValue : x ≤ mergedValue v a b ↔
    (∀ f ∈ a.unkeyed ++ b.unkeyed, x ≤ f.eval v) ∧
      ∀ key ∈ a.keys ++ b.keys, x ≤ keyValue v a b key := by
  simp only [mergedValue, le_inf_iff, Connective.le_fold_and, List.forall_mem_map]

/-- Keys that only the right side has come after those of the left. -/
theorem forall_keys {P : MergeKey → Prop} : (∀ key ∈ a.keys ++ b.keys, P key) ↔
    (∀ key ∈ a.keys, P key) ∧ ∀ key ∈ b.keys, key ∉ a.keys → P key := by
  simp only [List.forall_mem_append]
  refine and_congr_right fun ha => ?_
  constructor
  · intro hb key hk _
    exact hb key hk
  · intro hb key hk
    by_cases h : key ∈ a.keys
    · exact ha key h
    · exact hb key hk h

theorem mergedValue_comm : mergedValue v a b = mergedValue v b a := by
  refine eq_of_forall_le_iff fun x => ?_
  simp only [le_mergedValue, List.forall_mem_append, keyValue_comm (a := a)]
  rw [and_comm (a := ∀ f ∈ a.unkeyed, _), and_comm (a := ∀ key ∈ a.keys, _)]

theorem fold_mergedParts :
    Connective.and.fold ((mergedParts a b).map (eval v)) = mergedValue v a b := by
  refine eq_of_forall_le_iff fun x => ?_
  rw [le_mergedValue, forall_keys]
  unfold mergedParts
  dsimp only
  rw [fold_eval_append, List.map_append, List.map_append, Connective.fold_append,
    Connective.fold_append, free_grouped, free_grouped]
  simp only [Connective.apply, le_inf_iff, le_joinKeyed, le_otherKeyed]
  simp only [le_conj_iff, List.forall_mem_append]
  constructor
  · rintro ⟨⟨hkeys, ha⟩, hb⟩
    exact ⟨⟨ha, hb⟩, hkeys⟩
  · rintro ⟨⟨ha, hb⟩, hkeys⟩
    exact ⟨⟨hkeys, ha⟩, hb⟩

/-- Merging a filter with an equal one changes nothing. -/
theorem mergedValue_of_same (h : same a b = true) : mergedValue v a b = a.eval v := by
  refine eq_of_forall_le_iff fun x => ?_
  have hu : ∀ f ∈ b.unkeyed, f.eval v ∈ a.unkeyed.map (eval v) := by
    intro f hf
    rw [map_eval_eq (forall₂_unkeyed h)]
    exact List.mem_map_of_mem hf
  have hk : ∀ key ∈ b.keys, key ∈ a.keys := by
    intro key hb
    have hlen := (forall₂_onKey h key).length_eq
    rw [mem_keys, ← List.length_pos_iff] at hb ⊢
    omega
  rw [le_mergedValue, forall_keys, le_eval_iff, List.forall_mem_append]
  simp only [keyValue_of_same h]
  constructor
  · rintro ⟨⟨ha, -⟩, hka, -⟩
    exact ⟨ha, hka⟩
  · rintro ⟨ha, hka⟩
    refine ⟨⟨ha, ?_⟩, hka, ?_⟩
    · intro f hf
      obtain ⟨g, hg, heq⟩ := List.mem_map.mp (hu f hf)
      exact heq ▸ ha g hg
    · intro key hb hne
      exact (hne (hk key hb)).elim

theorem evalOption_some_merge? : evalOption v (merge? (some a) (some b)) = mergedValue v a b := by
  unfold merge?
  dsimp only
  split
  · rename_i h
    exact (mergedValue_of_same h).symm
  · rw [evalOption_proper?, eval_all, fold_mergedParts]

end RelQuery.Filter

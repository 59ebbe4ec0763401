import RelQuery.Proofs.Rows.Merge

/-!
# Repeated rows

A join repeats the rows of one association for each row of another. Merging does not notice: rows
that are repeated after their first place merge to the same objects, at every level.
-/

namespace RelQuery.Rows

/-- `Repeats xs ys`: the first list is the second one with elements repeated after their place. -/
inductive Repeats {α : Type} : List α → List α → Prop
  | nil : Repeats [] []
  | next {xs ys : List α} (a : α) : Repeats xs ys → Repeats (xs ++ [a]) (ys ++ [a])
  | again {xs ys : List α} {a : α} : Repeats xs ys → a ∈ ys → Repeats (xs ++ [a]) ys

namespace Repeats

variable {α β : Type} {xs ys zs xs' ys' : List α} {a : α}

protected theorem refl (xs : List α) : Repeats xs xs := by
  induction xs using List.reverseRecOn with
  | nil => exact .nil
  | append_singleton xs a ih => exact .next a ih

theorem mem_iff (h : Repeats xs ys) : a ∈ xs ↔ a ∈ ys := by
  induction h with
  | nil => exact .rfl
  | next b _ ih => rw [List.mem_append, List.mem_append, ih]
  | again _ hb ih =>
    rw [List.mem_append, ih, List.mem_singleton]
    exact or_iff_left_of_imp (· ▸ hb)

theorem append_again (h : Repeats xs ys) (hzs : ∀ a ∈ zs, a ∈ ys) : Repeats (xs ++ zs) ys := by
  induction zs generalizing xs with
  | nil => rwa [List.append_nil]
  | cons a zs ih =>
    rw [List.forall_mem_cons] at hzs
    have hstep := ih (h.again hzs.1) hzs.2
    rwa [List.append_assoc] at hstep

protected theorem append (h : Repeats xs ys) (h' : Repeats xs' ys') :
    Repeats (xs ++ xs') (ys ++ ys') := by
  induction h' with
  | nil => rwa [List.append_nil, List.append_nil]
  | next a _ ih =>
    rw [← List.append_assoc, ← List.append_assoc]
    exact .next a ih
  | again _ ha ih =>
    rw [← List.append_assoc]
    exact .again ih (List.mem_append_right _ ha)

/-- The last element is new, or it was there before. -/
theorem of_concat (h : Repeats (xs ++ [a]) zs) :
    (∃ ys, zs = ys ++ [a] ∧ Repeats xs ys) ∨ (a ∈ zs ∧ Repeats xs zs) := by
  generalize hxs : xs ++ [a] = ws at h
  cases h with
  | nil => cases xs <;> cases hxs
  | next b h =>
    obtain ⟨rfl, hab⟩ := List.append_inj' hxs rfl
    cases hab
    exact .inl ⟨_, rfl, h⟩
  | again h hb =>
    obtain ⟨rfl, hab⟩ := List.append_inj' hxs rfl
    cases hab
    exact .inr ⟨hb, h⟩

protected theorem trans (h : Repeats xs ys) (h' : Repeats ys zs) : Repeats xs zs := by
  induction h generalizing zs with
  | nil => exact h'
  | next a _ ih =>
    rcases of_concat h' with ⟨ws, rfl, hws⟩ | ⟨ha, hzs⟩
    · exact .next a (ih hws)
    · exact .again (ih hzs) ha
  | again _ ha ih => exact .again (ih h') (h'.mem_iff.mp ha)

protected theorem flatMap (h : Repeats xs ys) (f : α → List β) :
    Repeats (xs.flatMap f) (ys.flatMap f) := by
  induction h with
  | nil => exact .nil
  | next a _ ih =>
    rw [List.flatMap_append, List.flatMap_append]
    exact ih.append (.refl _)
  | again _ ha ih =>
    rw [List.flatMap_append, List.flatMap_singleton]
    exact ih.append_again fun b hb => List.mem_flatMap.mpr ⟨_, ha, hb⟩

protected theorem map (h : Repeats xs ys) (f : α → β) : Repeats (xs.map f) (ys.map f) := by
  rw [List.map_eq_flatMap, List.map_eq_flatMap]
  exact h.flatMap _

protected theorem filter (h : Repeats xs ys) (p : α → Bool) :
    Repeats (xs.filter p) (ys.filter p) := by
  induction h with
  | nil => exact .nil
  | next a _ ih =>
    rw [List.filter_append, List.filter_append]
    exact ih.append (.refl _)
  | again _ ha ih =>
    rw [List.filter_append]
    refine ih.append_again fun b hb => ?_
    obtain ⟨hb, hp⟩ := List.mem_filter.mp hb
    cases List.mem_singleton.mp hb
    exact List.mem_filter.mpr ⟨ha, hp⟩

/-- Repeating every list that is put in repeats the whole. -/
theorem flatMap_congr {as : List α} {f g : α → List β} (h : ∀ a ∈ as, Repeats (f a) (g a)) :
    Repeats (as.flatMap f) (as.flatMap g) := by
  induction as with
  | nil => exact .nil
  | cons a as ih =>
    rw [List.forall_mem_cons] at h
    exact h.1.append (ih h.2)

/-- A list that is put in several times is repeated. -/
theorem flatMap_const {as : List β} (has : as ≠ []) (xs : List α) :
    Repeats (as.flatMap fun _ => xs) xs := by
  obtain ⟨a, as, rfl⟩ := List.exists_cons_of_ne_nil has
  refine (Repeats.refl xs).append_again fun b hb => ?_
  obtain ⟨_, -, hb⟩ := List.mem_flatMap.mp hb
  exact hb

theorem head?_eq (h : Repeats xs ys) : xs.head? = ys.head? := by
  induction h with
  | nil => rfl
  | next a _ ih => rw [List.head?_append, List.head?_append, ih]
  | again _ ha ih =>
    obtain ⟨b, ys, rfl⟩ := List.exists_cons_of_ne_nil (List.ne_nil_of_mem ha)
    rw [List.head?_append, ih]
    rfl

theorem eraseDups_eq {ids ids' : List String} (h : Repeats ids ids') :
    ids.eraseDups = ids'.eraseDups := by
  induction h with
  | nil => rfl
  | next i h ih =>
    rw [eraseDups_concat, eraseDups_concat, ih]
    exact if_congr h.mem_iff rfl rfl
  | again h hi ih => rw [eraseDups_concat, if_pos (h.mem_iff.mpr hi), ih]

end Repeats

/-! ## Blocks of rows -/

section Blocks

variable {α β : Type} {as : List α} {a : α} {key : α → String} {block : α → List β}

/-- Blocks of rows have their keys in order. -/
theorem eraseDups_blocks {id : β → String} (hkeys : (as.map key).Nodup)
    (hne : ∀ a ∈ as, block a ≠ []) (hid : ∀ a ∈ as, ∀ b ∈ block a, id b = key a) :
    ((as.flatMap block).map id).eraseDups = as.map key := by
  have hrepeats : Repeats ((as.flatMap block).map id) (as.map key) := by
    rw [List.map_flatMap, List.map_eq_flatMap]
    refine Repeats.flatMap_congr fun a ha => ?_
    have hconst : (block a).map id = (block a).flatMap fun _ => [key a] := by
      rw [← List.map_eq_flatMap]
      exact List.map_congr_left (hid a ha)
    rw [hconst]
    exact Repeats.flatMap_const (hne a ha) [key a]
  rw [hrepeats.eraseDups_eq, eraseDups_of_nodup hkeys]

/-- The rows of one key are its block. -/
theorem filter_blocks {id : β → String} (hkeys : (as.map key).Nodup)
    (hid : ∀ a ∈ as, ∀ b ∈ block a, id b = key a) (ha : a ∈ as) :
    (as.flatMap block).filter (id · = key a) = block a := by
  induction as with
  | nil => cases ha
  | cons c as ih =>
    rw [List.map_cons, List.nodup_cons] at hkeys
    rw [List.forall_mem_cons] at hid
    have hother : ∀ a ∈ as, key a ≠ key c := by
      intro a ha heq
      exact hkeys.1 (heq ▸ List.mem_map_of_mem ha)
    rw [List.flatMap_cons, List.filter_append]
    rcases List.mem_cons.mp ha with rfl | ha
    · have hfirst : (block a).filter (id · = key a) = block a :=
        List.filter_eq_self.mpr fun b hb => decide_eq_true (hid.1 b hb)
      have hrest : (as.flatMap block).filter (id · = key a) = [] := by
        refine List.filter_eq_nil_iff.mpr fun b hb heq => ?_
        obtain ⟨c, hc, hb⟩ := List.mem_flatMap.mp hb
        exact hother c hc ((hid.2 c hc b hb).symm.trans (of_decide_eq_true heq))
      rw [hfirst, hrest, List.append_nil]
    · have hfirst : (block c).filter (id · = key a) = [] := by
        refine List.filter_eq_nil_iff.mpr fun b hb heq => ?_
        exact hother a ha ((of_decide_eq_true heq).symm.trans (hid.1 b hb))
      rw [hfirst, List.nil_append, ih hkeys.2 hid.2 ha]

end Blocks

/-! ## Merging -/

variable {s : Schema} {Q : Model → Filter → Prop} {m : Model} {n : Include} {nodes : List Include}
  {rows rows' : List Row} {under under' : String → List Row}

theorem mergedObject_repeats
    (H : ∀ n ∈ nodes, ∀ under under', Repeats (under n.name) (under' n.name) →
      shownField s under n = shownField s under' n)
    (h : Repeats rows rows') : mergedObject s nodes rows = mergedObject s nodes rows' := by
  have hfields : (nodes.filter isShown).mapM
        (shownField s (rowsUnder (nodes.filter (!·.separate)) rows)) =
      (nodes.filter isShown).mapM
        (shownField s (rowsUnder (nodes.filter (!·.separate)) rows')) :=
    mapM_congr fun n hn => H n (List.mem_filter.mp hn).1 _ _ (h.flatMap _)
  rw [mergedObject, mergedObject, hfields, h.head?_eq]

theorem mergeRows_repeats_of (hnames : (nodes.map (·.name)).Nodup)
    (H : ∀ n ∈ nodes, ∀ under under', Repeats (under n.name) (under' n.name) →
      shownField s under n = shownField s under' n)
    (m : Model) (h : Repeats rows rows') : mergeRows s m nodes rows = mergeRows s m nodes rows' := by
  rw [mergeRows_eq hnames, mergeRows_eq hnames, (h.map _).eraseDups_eq]
  exact mapM_congr fun i _ => mergedObject_repeats H (h.filter _)

theorem shownField_repeats (hn : n.Rooted s Q m) (h : Repeats (under n.name) (under' n.name)) :
    shownField s under n = shownField s under' n := by
  induction hn generalizing under under' with
  | @node m t assoc n hf ht _ _ hnames _ ih =>
    have hmerge := mergeRows_repeats_of hnames (fun c hc _ _ h => ih c hc h) t h
    rw [shownField, shownField, ht, Schema.model_name (Schema.follow_eq_ok.mp hf).2, ok_bind,
      ok_bind, hmerge]

end RelQuery.Rows

import RelQuery.Filter.Merge

/-!
# Equal filters

Every filter equals itself, whatever documents it compares with, and so a merge with itself leaves
it as it is. Filters that equal a third one in a row are equal.
-/

namespace RelQuery

/-! ## Documents -/

theorem Number.same_refl (n : Number) : n.same n = true := by
  cases n with
  | int val ge lt => simp [same]
  | float x => exact x.same_refl

theorem Binary64.same_trans {x y z : Binary64} (h : x.same y = true) (h' : y.same z = true) :
    x.same z = true := by
  simp only [same, Bool.or_eq_true, Bool.and_eq_true, beq_iff_eq] at h h' ⊢
  rcases h with ⟨hx, hy⟩ | rfl
  · rcases h' with ⟨-, hz⟩ | rfl
    · exact .inl ⟨hx, hz⟩
    · exact .inl ⟨hx, hy⟩
  · exact h'

theorem Number.same_trans {m n o : Number} (h : m.same n = true) (h' : n.same o = true) :
    m.same o = true := by
  cases m <;> cases n <;> cases o <;> simp only [same, beq_iff_eq, Bool.false_eq_true] at h h' ⊢
  · exact h.trans h'
  · exact Binary64.same_trans h h'

namespace Document

theorem sameItems_refl {items : List Document} (h : ∀ d ∈ items, same d d = true) :
    sameItems items items = true := by
  induction items with
  | nil => rfl
  | cons d items ih =>
    rw [List.forall_mem_cons] at h
    simp [sameItems, h.1, ih h.2]

/-- Fields are among themselves, even if a name stands twice. -/
theorem sameFields_of_subset {fs gs : List (String × Document)}
    (h : ∀ f ∈ fs, same f.2 f.2 = true) (hsub : fs ⊆ gs) : sameFields fs gs = true := by
  induction fs with
  | nil => rfl
  | cons f fs ih =>
    rw [List.forall_mem_cons] at h
    rw [List.cons_subset] at hsub
    rw [sameFields, Bool.and_eq_true, List.any_eq_true]
    exact ⟨⟨f, hsub.1, by simp [h.1]⟩, ih h.2 hsub.2⟩

theorem same_refl (d : Document) : same d d = true := by
  induction d with
  | null => rfl
  | bool b => simp [same]
  | num n => exact n.same_refl
  | str t => simp [same]
  | arr items ih => exact sameItems_refl ih
  | obj fields ih => simp [same, sameFields_of_subset ih (List.Subset.refl _)]

theorem sameItems_trans {as bs cs : List Document}
    (H : ∀ a ∈ as, ∀ b c, same a b = true → same b c = true → same a c = true)
    (h : sameItems as bs = true) (h' : sameItems bs cs = true) : sameItems as cs = true := by
  induction as generalizing bs cs with
  | nil =>
    cases bs with
    | nil => exact h'
    | cons => cases h
  | cons a as ih =>
    cases bs with
    | nil => cases h
    | cons b bs =>
      cases cs with
      | nil => cases h'
      | cons c cs =>
        rw [sameItems, Bool.and_eq_true] at h h' ⊢
        rw [List.forall_mem_cons] at H
        exact ⟨H.1 b c h.1 h'.1, ih H.2 h.2 h'.2⟩

theorem sameFields_iff {fs gs : List (String × Document)} : sameFields fs gs = true ↔
    ∀ f ∈ fs, ∃ g ∈ gs, g.1 = f.1 ∧ same f.2 g.2 = true := by
  induction fs with
  | nil => simp [sameFields]
  | cons f fs ih =>
    rw [sameFields, Bool.and_eq_true, List.any_eq_true, ih, List.forall_mem_cons]
    simp only [Bool.and_eq_true, beq_iff_eq]

theorem same_trans {a b c : Document} (h : same a b = true) (h' : same b c = true) :
    same a c = true := by
  induction a generalizing b c with
  | arr as ih =>
    cases b <;> simp only [same, Bool.false_eq_true] at h
    cases c <;> simp only [same, Bool.false_eq_true] at h'
    exact sameItems_trans (fun a ha _ _ => ih a ha) h h'
  | obj fs ih =>
    cases b <;> simp only [same, Bool.and_eq_true, beq_iff_eq, Bool.false_eq_true] at h
    cases c <;> simp only [same, Bool.and_eq_true, beq_iff_eq, Bool.false_eq_true] at h'
    simp only [same, Bool.and_eq_true, beq_iff_eq]
    refine ⟨h.1.trans h'.1, sameFields_iff.mpr fun f hf => ?_⟩
    obtain ⟨g, hg, hfg, hsame⟩ := sameFields_iff.mp h.2 f hf
    obtain ⟨i, hi, hgi, hsame'⟩ := sameFields_iff.mp h'.2 g hg
    exact ⟨i, hi, hgi.trans hfg, ih f hf hsame hsame'⟩
  | num n =>
    cases b <;> simp only [same, Bool.false_eq_true] at h
    cases c <;> simp only [same, Bool.false_eq_true] at h'
    exact Number.same_trans h h'
  | _ =>
    cases b <;> simp only [same, beq_iff_eq, Bool.false_eq_true] at h
    cases c <;> simp only [same, beq_iff_eq, Bool.false_eq_true] at h'
    simp_all [same]

end Document

theorem Operand.same_refl (o : Operand) : same o o = true := by
  cases o with
  | plain value => exact value.same_refl
  | cast literal type => simp [same]

theorem Operand.same_trans {a b c : Operand} (h : same a b = true) (h' : same b c = true) :
    same a c = true := by
  cases a <;> cases b <;> simp only [same, Bool.and_eq_true, beq_iff_eq, Bool.false_eq_true] at h
  · cases c <;> simp only [same, Bool.false_eq_true] at h'
    exact Document.same_trans h h'
  · rw [h.1, h.2]
    exact h'

theorem Comparison.beq_refl (c : Comparison) : (c == c) = true := by
  have h : (c.operand == c.operand) = true := c.operand.same_refl
  change (c.path == c.path && c.operator == c.operator && c.operand == c.operand &&
    c.type == c.type && c.negated == c.negated) = true
  simp [h]

theorem Comparison.beq_trans {a b c : Comparison} (h : (a == b) = true) (h' : (b == c) = true) :
    (a == c) = true := by
  change (a.path == b.path && a.operator == b.operator && a.operand == b.operand &&
    a.type == b.type && a.negated == b.negated) = true at h
  change (b.path == c.path && b.operator == c.operator && b.operand == c.operand &&
    b.type == c.type && b.negated == c.negated) = true at h'
  change (a.path == c.path && a.operator == c.operator && a.operand == c.operand &&
    a.type == c.type && a.negated == c.negated) = true
  simp only [Bool.and_eq_true, beq_iff_eq] at h h' ⊢
  obtain ⟨⟨⟨⟨hpath, hop⟩, hoperand⟩, htype⟩, hneg⟩ := h
  obtain ⟨⟨⟨⟨hpath', hop'⟩, hoperand'⟩, htype'⟩, hneg'⟩ := h'
  exact ⟨⟨⟨⟨hpath.trans hpath', hop.trans hop'⟩, Operand.same_trans hoperand hoperand'⟩,
    htype.trans htype'⟩, hneg.trans hneg'⟩

/-! ## Filters -/

namespace Filter

variable {f : Filter} {fs : List Filter}

theorem sameAll_refl (h : ∀ f ∈ fs, same f f = true) : sameAll fs fs = true := by
  induction fs with
  | nil => rfl
  | cons f fs ih =>
    rw [List.forall_mem_cons] at h
    simp [sameAll, h.1, ih h.2]

theorem same_refl (f : Filter) : same f f = true := by
  induction f with
  | comparison c => exact c.beq_refl
  | computed c => simp [same]
  | raw sql => simp [same]
  | logical k fs ih => simp [same, sameAll_refl ih]
  | not f ih => exact ih

theorem sameAll_trans {fs gs hs : List Filter}
    (H : ∀ f ∈ fs, ∀ g i, same f g = true → same g i = true → same f i = true)
    (h : sameAll fs gs = true) (h' : sameAll gs hs = true) : sameAll fs hs = true := by
  induction fs generalizing gs hs with
  | nil =>
    cases gs with
    | nil => exact h'
    | cons => cases h
  | cons f fs ih =>
    cases gs with
    | nil => cases h
    | cons g gs =>
      cases hs with
      | nil => cases h'
      | cons i hs =>
        rw [sameAll, Bool.and_eq_true] at h h' ⊢
        rw [List.forall_mem_cons] at H
        exact ⟨H.1 g i h.1 h'.1, ih H.2 h.2 h'.2⟩

theorem same_trans {f g i : Filter} (h : same f g = true) (h' : same g i = true) :
    same f i = true := by
  induction f generalizing g i with
  | comparison a =>
    cases g <;> simp only [same, Bool.false_eq_true] at h
    cases i <;> simp only [same, Bool.false_eq_true] at h'
    exact Comparison.beq_trans h h'
  | logical k fs ih =>
    cases g <;> simp only [same, Bool.and_eq_true, beq_iff_eq, Bool.false_eq_true] at h
    cases i <;> simp only [same, Bool.and_eq_true, beq_iff_eq, Bool.false_eq_true] at h'
    simp only [same, Bool.and_eq_true, beq_iff_eq]
    exact ⟨h.1.trans h'.1, sameAll_trans (fun f hf _ _ => ih f hf) h.2 h'.2⟩
  | not f ih =>
    cases g <;> simp only [same, Bool.false_eq_true] at h
    cases i <;> simp only [same, Bool.false_eq_true] at h'
    exact ih h h'
  | _ =>
    cases g <;> simp only [same, beq_iff_eq, Bool.false_eq_true] at h
    rw [h]
    exact h'

theorem contains_of_mem (h : f ∈ fs) : fs.contains f = true :=
  List.contains_iff_exists_mem_beq.mpr ⟨f, h, f.same_refl⟩

/-- A filter merged with itself stays as it is. -/
@[simp] theorem merge?_self (f? : Option Filter) : merge? f? f? = f? := by
  cases f? with
  | none => rfl
  | some f =>
    have h : (f == f) = true := f.same_refl
    simp [merge?, h]

end Filter

end RelQuery

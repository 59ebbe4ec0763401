import RelQuery.Proofs.Filter.MergeParts

/-!
# What combinations inherit

A combination flattens its operands and drops copies. A property that a connective has exactly if an
operand has it, and that equal filters share, survives both: a combination has it exactly if an
operand has it.
-/

namespace RelQuery.Filter

/-- A property that connectives and negations inherit from their operands, and that equal filters
share. -/
structure Inherited (P : Filter → Prop) : Prop where
  logical : ∀ {k : Connective} {fs : List Filter}, P (.logical k fs) ↔ ∃ f ∈ fs, P f
  not : ∀ {f : Filter}, P f → P (.not f)
  comparison_congr : ∀ {a b : Comparison}, (a == b) = true →
    (P (.comparison a) ↔ P (.comparison b))
  not_congr : ∀ {f g : Filter}, (P f ↔ P g) → (P (.not f) ↔ P (.not g))

namespace Inherited

variable {P : Filter → Prop} {f g : Filter} {fs gs : List Filter} {k : Connective}

theorem exists_congr (h : List.Forall₂ (fun f g => P f ↔ P g) fs gs) :
    (∃ f ∈ fs, P f) ↔ ∃ g ∈ gs, P g := by
  induction h with
  | nil => rfl
  | cons h _ ih => simp only [List.exists_mem_cons_iff, h, ih]

variable (hP : Inherited P)
include hP

theorem congr (h : same f g = true) : P f ↔ P g := by
  induction f generalizing g with
  | comparison a =>
    cases g with
    | comparison b => exact hP.comparison_congr h
    | _ => cases h
  | computed a =>
    cases g <;> simp [same] at h
    rw [h]
  | raw a =>
    cases g <;> simp [same] at h
    rw [h]
  | logical k fs ih =>
    cases g <;> simp only [same, Bool.and_eq_true, beq_iff_eq, Bool.false_eq_true] at h
    rw [hP.logical, hP.logical]
    exact exists_congr (forall₂_of_sameAll ih h.2)
  | not f ih =>
    cases g <;> simp only [same, Bool.false_eq_true] at h
    exact hP.not_congr (ih h)

theorem of_contains (h : fs.contains f = true) (hf : P f) : ∃ g ∈ fs, P g := by
  obtain ⟨g, hg, hfg⟩ := List.contains_iff_exists_mem_beq.mp h
  exact ⟨g, hg, (hP.congr hfg).mp hf⟩

theorem parts : (∃ g ∈ parts k f, P g) ↔ P f := by
  by_cases h : ∃ fs, f = .logical k fs
  · obtain ⟨fs, rfl⟩ := h
    simp [Filter.parts, hP.logical]
  · have hparts : Filter.parts k f = [f] := by
      unfold Filter.parts
      split
      · split
        · rename_i l fs hl
          exact (h ⟨fs, hl ▸ rfl⟩).elim
        · rfl
      · rfl
    simp [hparts]

theorem distinct : (∃ g ∈ distinct fs, P g) ↔ ∃ f ∈ fs, P f := by
  constructor
  · rintro ⟨g, hg, h⟩
    exact ⟨g, mem_distinct hg, h⟩
  · rintro ⟨f, hf, h⟩
    obtain ⟨g, hg, hfg⟩ := exists_same_distinct hf
    exact ⟨g, hg, (hP.congr hfg).mp h⟩

/-- A combination has the property exactly if an operand has it. -/
theorem combine : P (combine k fs) ↔ ∃ f ∈ fs, P f := by
  have hflat : (∃ g ∈ fs.flatMap (Filter.parts k), P g) ↔ ∃ f ∈ fs, P f := by
    constructor
    · rintro ⟨g, hg, h⟩
      obtain ⟨f, hf, hg⟩ := List.mem_flatMap.mp hg
      exact ⟨f, hf, hP.parts.mp ⟨g, hg, h⟩⟩
    · rintro ⟨f, hf, h⟩
      obtain ⟨g, hg, h⟩ := hP.parts.mpr h
      exact ⟨g, List.mem_flatMap.mpr ⟨f, hf, hg⟩, h⟩
  rw [← hflat, ← hP.distinct]
  unfold Filter.combine
  split
  · rename_i g h
    simp [h]
  · exact hP.logical

end Inherited

end RelQuery.Filter

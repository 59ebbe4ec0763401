import RelQuery.Proofs.Plan.Negated

/-!
# Hops of filters

The associations that a filter goes along are those on the paths of its comparisons. Like all that
comparisons reach, they are inherited by connectives and negations, and a merge goes along those of
both sides.
-/

namespace RelQuery.Filter

variable {f : Filter} {fs : List Filter} {k : Connective} {f? g? : Option Filter}
  {path : AttributePath} {hops : List String}

theorem mem_pathsAll_iff : path ∈ pathsAll fs ↔ ∃ f ∈ fs, path ∈ f.paths := by
  induction fs with
  | nil => simp [pathsAll]
  | cons f fs ih => simp [pathsAll, ih]

theorem mem_paths_iff : path ∈ f.paths ↔ ∃ negated, f.Reaches (path, negated) := by
  constructor
  · intro h
    induction f with
    | comparison c =>
      cases List.mem_singleton.mp h
      exact ⟨c.negated, .comparison c, List.mem_singleton_self _, rfl⟩
    | computed c =>
      cases List.mem_singleton.mp h
      exact ⟨c.negated, .computed c, List.mem_singleton_self _, rfl⟩
    | raw sql => cases h
    | logical k fs ih =>
      obtain ⟨f, hf, h⟩ := mem_pathsAll_iff.mp h
      obtain ⟨negated, hr⟩ := ih f hf h
      exact ⟨negated, reaches_logical.mpr ⟨f, hf, hr⟩⟩
    | not f ih => exact ih h
  · rintro ⟨negated, l, hl, hr⟩
    exact mem_paths hl hr

/-- A comparison of a filter, if there is one, goes along these hops. -/
def GoesAlong (f? : Option Filter) (hops : List String) : Prop :=
  ∃ path negated, path.hops = hops ∧ OptionReaches f? (path, negated)

theorem not_goesAlong_none : ¬GoesAlong none hops := fun ⟨_, _, _, _, h, _⟩ => nomatch h

theorem goesAlong_iff_reaches :
    GoesAlong (some f) hops ↔ ∃ path negated, path.hops = hops ∧ f.Reaches (path, negated) := by
  simp only [GoesAlong, OptionReaches, Option.some.injEq, exists_eq_left']

theorem goesAlong_some : GoesAlong (some f) hops ↔ ∃ path ∈ f.paths, path.hops = hops := by
  simp only [goesAlong_iff_reaches, mem_paths_iff]
  constructor
  · rintro ⟨path, negated, hpath, hr⟩
    exact ⟨path, ⟨negated, hr⟩, hpath⟩
  · rintro ⟨path, ⟨negated, hr⟩, hpath⟩
    exact ⟨path, negated, hpath, hr⟩

/-- Connectives and negations go along the hops of their operands. -/
theorem inherited_goesAlong (hops : List String) : Inherited fun f => GoesAlong (some f) hops where
  logical {k fs} := by
    simp only [goesAlong_iff_reaches, reaches_logical]
    constructor
    · rintro ⟨path, negated, hpath, f, hf, hr⟩
      exact ⟨f, hf, path, negated, hpath, hr⟩
    · rintro ⟨f, hf, path, negated, hpath, hr⟩
      exact ⟨path, negated, hpath, f, hf, hr⟩
  not {f} h := by
    rw [goesAlong_iff_reaches] at h ⊢
    exact h
  comparison_congr h := by
    simp only [goesAlong_iff_reaches, (inherited_reaches _).comparison_congr h]
  not_congr {f g} h := by
    rw [goesAlong_iff_reaches, goesAlong_iff_reaches] at h ⊢
    exact h

theorem goesAlong_proper? : GoesAlong f.proper? hops ↔ GoesAlong (some f) hops := by
  constructor
  · rintro ⟨path, negated, hpath, g, hg, hr⟩
    cases proper?_eq_some hg
    exact ⟨path, negated, hpath, _, rfl, hr⟩
  · rintro ⟨path, negated, hpath, g, hg, hr⟩
    cases hg
    exact ⟨path, negated, hpath, optionReaches_proper? hr⟩

theorem goesAlong_merge? :
    GoesAlong (merge? f? g?) hops ↔ GoesAlong f? hops ∨ GoesAlong g? hops := by
  simp only [GoesAlong, optionReaches_merge?, and_or_left, exists_or]

theorem goesAlong_all : GoesAlong (some (all fs)) hops ↔ ∃ f ∈ fs, GoesAlong (some f) hops :=
  (inherited_goesAlong hops).combine

end RelQuery.Filter

import RelQuery.Proofs.Filter.Flat
import RelQuery.Proofs.Filter.Reading

/-!
# Canonical filters

A combination drops copies and is never of one operand alone. In a canonical filter that holds of
every connective at any depth, and connectives alternate. As combinations are made from the inside
out, a filter that is left over as the only operand is canonical already.
-/

namespace RelQuery.Filter

/-- Operands as a combination leaves them: none has the connective itself, no two are equal, and
there is not just one. -/
structure Reduced (k : Connective) (fs : List Filter) : Prop where
  alternating : ∀ f ∈ fs, f.connective? ≠ some k
  distinct : fs.Pairwise fun f g => (g == f) = false
  not_single : fs.length ≠ 1

/-- The operands of every connective are reduced, at any depth. -/
inductive Canonical : Filter → Prop
  | comparison {c : Comparison} : Canonical (.comparison c)
  | computed {c : ComputedComparison} : Canonical (.computed c)
  | raw {sql : String} : Canonical (.raw sql)
  | logical {k : Connective} {fs : List Filter} : Reduced k fs → (∀ f ∈ fs, Canonical f) →
      Canonical (.logical k fs)
  | not {f : Filter} : Canonical f → Canonical (.not f)

variable {f g : Filter} {fs gs : List Filter} {k : Connective}

theorem Canonical.flat (h : f.Canonical) : f.Flat := by
  induction h with
  | logical h _ ih => exact .logical h.alternating ih
  | not _ ih => exact .not ih
  | _ => constructor

/-! ## Without copies -/

theorem pairwise_append (h : fs.Pairwise fun f g => (g == f) = false) :
    (append fs gs).Pairwise fun f g => (g == f) = false := by
  unfold append
  induction gs generalizing fs with
  | nil => exact h
  | cons g gs ih =>
    rw [List.foldl_cons]
    refine ih ?_
    split
    · exact h
    · rename_i hg
      refine List.pairwise_append.mpr ⟨h, List.pairwise_singleton _ g, fun f hf g' hg' => ?_⟩
      cases List.mem_singleton.mp hg'
      exact Bool.eq_false_iff.mpr fun hgf =>
        hg (List.contains_iff_exists_mem_beq.mpr ⟨f, hf, hgf⟩)

theorem pairwise_distinct : (distinct fs).Pairwise fun f g => (g == f) = false :=
  pairwise_append .nil

/-! ## Combinations -/

/-- What a canonical filter contributes to a combination is canonical, and no combination of that
kind. -/
theorem Canonical.parts (h : f.Canonical) (hg : g ∈ parts k f) :
    g.connective? ≠ some k ∧ g.Canonical := by
  refine ⟨(h.flat.parts hg).1, ?_⟩
  unfold Filter.parts at hg
  split at hg
  · split at hg
    · cases h with
      | logical _ hfs => exact hfs g hg
    · exact List.mem_singleton.mp hg ▸ h
  · exact List.mem_singleton.mp hg ▸ h

theorem Canonical.combine (h : ∀ f ∈ fs, f.Canonical) : (combine k fs).Canonical := by
  have hgs : ∀ g ∈ Filter.distinct (fs.flatMap (Filter.parts k)),
      g.connective? ≠ some k ∧ g.Canonical := by
    intro g hg
    obtain ⟨f, hf, hg⟩ := List.mem_flatMap.mp (mem_distinct hg)
    exact (h f hf).parts hg
  unfold Filter.combine
  split
  · rename_i g heq
    exact (hgs g (heq ▸ List.mem_cons_self)).2
  · rename_i hne
    refine .logical ⟨fun g hg => (hgs g hg).1, pairwise_distinct, fun hlen => ?_⟩
      fun g hg => (hgs g hg).2
    obtain ⟨g, heq⟩ := List.length_eq_one_iff.mp hlen
    exact hne g heq

theorem kept_canonical : Kept Canonical where
  comparison _ := .comparison
  computed _ := .computed
  raw _ := .raw
  not := .not
  parts h hg := (h.parts hg).2
  combine := .combine

/-! ## What the planner makes of filters -/

/-- Filters stay canonical: all that compiles is, all that is lowered, whatever it was before, and
merges and combinations of canonical filters. -/
theorem canonical_filters (s : Schema) :
    (∀ model value f, compile s model value = .ok f → f.Canonical) ∧
    (∀ (f : Filter) m table g, f.lower s m table = .ok g → g.Canonical) ∧
    (∀ a? b? f, (∀ a, a? = some a → a.Canonical) → (∀ b, b? = some b → b.Canonical) →
      merge? a? b? = some f → f.Canonical) ∧
    ∀ fs, (∀ f ∈ fs, f.Canonical) → (all fs).Canonical ∧ (any fs).Canonical :=
  ⟨fun _ _ _ => kept_canonical.compile, fun _ _ _ _ => kept_canonical.lower,
    fun _ _ f ha hb h => forall_merge? kept_canonical.merge? ha hb f h,
    fun _ h => ⟨.combine h, .combine h⟩⟩

/-- A conjunction within one, a conjunct twice. -/
def nested : Filter := .logical .and [.logical .and [named, keyless], .logical .or [keyless]]

theorem nested_canonical : ∃ m, people.model "Person" = .ok m ∧
    (logical .or [.not named, named, keyless]).Canonical ∧
    nested.lower people m "Person" = .ok (.logical .and [named, keyless]) ∧
    (logical .and [named, keyless]).Canonical ∧
    merge? (some named) (some keyless) = some (.logical .and [named, keyless]) ∧
    (all [named, keyless]).Canonical ∧ (any [named, keyless]).Canonical := by
  obtain ⟨hcompile, hlower, hmerge, hcombine⟩ := canonical_filters people
  obtain ⟨m, hm⟩ : ∃ m, people.model "Person" = .ok m := ⟨_, rfl⟩
  have hnamed : named.Canonical := .comparison
  have hkeyless : keyless.Canonical := .comparison
  have hsides : ∀ f ∈ [named, keyless], f.Canonical :=
    List.forall_mem_cons.mpr ⟨hnamed, List.forall_mem_singleton.mpr hkeyless⟩
  have hmerged := hmerge (some named) (some keyless) _ (fun _ h => Option.some.inj h ▸ hnamed)
    (fun _ h => Option.some.inj h ▸ hkeyless) rfl
  exact ⟨m, hm, hcompile _ _ _ compile_nameless, rfl, hlower nested m "Person" _ rfl, rfl,
    hcombine _ hsides⟩

end RelQuery.Filter

import RelQuery.Proofs.Filter.Kept

/-!
# Flat filters

In a flat filter connectives alternate: no operand of a connective has the connective itself. What
compiles is flat, and combining, merging and lowering keep it so. The conjuncts of a flat filter are
therefore no conjunctions themselves.
-/

namespace RelQuery.Filter

/-- The connective at the top of a filter. -/
def connective? : Filter → Option Connective
  | .logical k _ => some k
  | _ => none

/-- No operand of a connective has the connective itself, at any depth. -/
inductive Flat : Filter → Prop
  | comparison {c : Comparison} : Flat (.comparison c)
  | computed {c : ComputedComparison} : Flat (.computed c)
  | raw {sql : String} : Flat (.raw sql)
  | logical {k : Connective} {fs : List Filter} :
      (∀ f ∈ fs, f.connective? ≠ some k) → (∀ f ∈ fs, Flat f) → Flat (.logical k fs)
  | not {f : Filter} : Flat f → Flat (.not f)

variable {a b f g : Filter} {fs gs : List Filter} {k : Connective}

theorem parts_of_ne (h : f.connective? ≠ some k) : parts k f = [f] := by
  cases f with
  | logical l fs =>
    have hl : l ≠ k := fun hl => h (congrArg some hl)
    simp [parts, hl]
  | _ => rfl

theorem flatMap_parts_of_ne (h : ∀ f ∈ fs, f.connective? ≠ some k) :
    fs.flatMap (parts k) = fs := by
  induction fs with
  | nil => rfl
  | cons f fs ih =>
    rw [List.forall_mem_cons] at h
    rw [List.flatMap_cons, parts_of_ne h.1, ih h.2, List.singleton_append]

/-- What a flat filter contributes to a combination is flat, and no combination of that kind. -/
theorem Flat.parts (h : f.Flat) (hg : g ∈ parts k f) : g.connective? ≠ some k ∧ g.Flat := by
  cases h with
  | @logical l fs hne hfs =>
    by_cases hl : l = k
    · cases hl
      simp only [Filter.parts, if_true] at hg
      exact ⟨hne g hg, hfs g hg⟩
    · simp only [Filter.parts, hl, if_false] at hg
      cases List.mem_singleton.mp hg
      exact ⟨fun h => hl (Option.some.inj h), .logical hne hfs⟩
  | not h =>
    cases List.mem_singleton.mp hg
    exact ⟨nofun, .not h⟩
  | _ =>
    cases List.mem_singleton.mp hg
    exact ⟨nofun, by constructor⟩

theorem Flat.conjuncts (h : f.Flat) (hg : g ∈ f.conjuncts) :
    g.connective? ≠ some .and ∧ g.Flat :=
  h.parts hg

/-- A combination is its only operand, or has operands that do not have its connective. -/
theorem Flat.combine (h : ∀ f ∈ fs, f.Flat) : (combine k fs).Flat := by
  have hgs : ∀ g ∈ distinct (fs.flatMap (Filter.parts k)), g.connective? ≠ some k ∧ g.Flat := by
    intro g hg
    obtain ⟨f, hf, hg⟩ := List.mem_flatMap.mp (mem_distinct hg)
    exact (h f hf).parts hg
  unfold Filter.combine
  split
  · rename_i g heq
    exact (hgs g (heq ▸ List.mem_cons_self)).2
  · exact .logical (fun g hg => (hgs g hg).1) fun g hg => (hgs g hg).2

theorem all_singleton (h : f.connective? ≠ some .and) : all [f] = f := by
  have hparts : [f].flatMap (Filter.parts .and) = [f] := by simp [parts_of_ne h]
  rw [all, Filter.combine, hparts]
  rfl

theorem connective?_congr (h : same f g = true) : f.connective? = g.connective? := by
  cases f <;> cases g <;> simp_all [same, connective?]

/-- An operand of a conjunction that is none itself is a conjunct of it, up to equality. -/
theorem exists_same_conjuncts_all (hf : f ∈ fs) (hne : f.connective? ≠ some .and) :
    ∃ g ∈ (all fs).conjuncts, same f g = true := by
  have hpart : f ∈ fs.flatMap (Filter.parts .and) :=
    List.mem_flatMap.mpr ⟨f, hf, parts_of_ne hne ▸ List.mem_cons_self⟩
  obtain ⟨g, hg, hfg⟩ := exists_same_distinct hpart
  refine ⟨g, ?_, hfg⟩
  unfold all Filter.combine
  split
  · rename_i g' heq
    rw [heq] at hg
    cases List.mem_singleton.mp hg
    have hne' : g.connective? ≠ some .and := connective?_congr hfg ▸ hne
    rw [Filter.conjuncts, parts_of_ne hne']
    exact List.mem_singleton_self g
  · exact hg

/-- What compiles, merges and lowers is flat. -/
theorem kept_flat : Kept Flat where
  comparison _ := .comparison
  computed _ := .computed
  raw _ := .raw
  not := .not
  parts h hg := (h.parts hg).2
  combine := .combine

end RelQuery.Filter

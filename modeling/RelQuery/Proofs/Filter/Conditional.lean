import RelQuery.Proofs.Filter.Descent
import RelQuery.Proofs.Filter.Reading

/-!
# Filters with a condition

A filter without leaves and negations has the same value for every row. Of what compiles, only two
filters are of that kind, the empty conjunction and the empty disjunction. A filter has a condition
exactly if its document states one at some depth, so the empty conjunction is what documents compile
to that state none and read as true.
-/

namespace RelQuery.Filter

/-- A filter has a leaf or a negation, at any depth. -/
inductive Conditional : Filter → Prop
  | comparison {c : Comparison} : Conditional (.comparison c)
  | computed {c : ComputedComparison} : Conditional (.computed c)
  | raw {sql : String} : Conditional (.raw sql)
  | operand {k : Connective} {fs : List Filter} {f : Filter} : f ∈ fs → Conditional f →
      Conditional (.logical k fs)
  | not {f : Filter} : Conditional (.not f)

/-- The filter that is never true. -/
def never : Filter := .logical .or []

/-- A condition stands in a document itself: a comparison, an expression or a negation. -/
inductive States (s : Schema) : Scope × Document → Prop
  | comparison {a : Scope × Document} : Compares s a → States s a
  | expression {scope : Scope} {fields : List (String × Document)} {key : String}
      {value : Document} : (key, value) ∈ fields → role s scope key value = .ok .expression →
      States s (scope, .obj fields)
  | negation {scope : Scope} {fields : List (String × Document)} {key : String}
      {value : Document} : (key, value) ∈ fields → role s scope key value = .ok .negation →
      States s (scope, .obj fields)

/-- A document states a condition at some depth. -/
def HasCondition (s : Schema) (a : Scope × Document) : Prop := ∃ b, Visits s a b ∧ States s b

variable {s : Schema} {m : Model} {scope : Scope} {table : String} {value : Document}
  {f g : Filter} {fs : List Filter} {k : Connective} {op : Operator}

theorem conditional_logical : (logical k fs).Conditional ↔ ∃ f ∈ fs, f.Conditional := by
  constructor
  · rintro (_ | _ | _ | ⟨hf, h⟩)
    exact ⟨_, hf, h⟩
  · rintro ⟨f, hf, h⟩
    exact .operand hf h

theorem inherited_conditional : Inherited Conditional where
  logical := conditional_logical
  not _ := .not
  comparison_congr _ := ⟨fun _ => .comparison, fun _ => .comparison⟩
  not_congr _ := ⟨fun _ => .not, fun _ => .not⟩

theorem not_conditional_always : ¬always.Conditional := by
  rw [always, conditional_logical]
  nofun

theorem conditional_of_leaf (h : leaf s scope op value = .ok f) : f.Conditional := by
  obtain ⟨a, -, ⟨c, rfl, -⟩ | ⟨e, c, -, rfl, -⟩⟩ := leaf_eq_ok h
  · exact .comparison
  · exact .computed

/-! ## Conditions of documents -/

/-- The filter of a document that states a condition has one. -/
theorem conditional_of_states (hs : States s (scope, value))
    (h : compileValue s scope value = .ok f) : f.Conditional := by
  cases hs with
  | comparison hc =>
    exact inherited_conditional.of_compares hc h fun _ _ _ hleaf => conditional_of_leaf hleaf
  | expression he hrole =>
    obtain ⟨fs, rfl, g, hg, hentry⟩ := compile_field h he
    rw [compileEntry, hrole] at hentry
    obtain ⟨sql, -, rfl⟩ := map_eq_ok.mp hentry
    exact inherited_conditional.combine.mpr ⟨_, hg, .raw⟩
  | @negation _ _ _ value he hrole =>
    obtain ⟨fs, rfl, g, hg, hentry⟩ := compile_field h he
    rw [compileEntry, hrole] at hentry
    refine inherited_conditional.combine.mpr ⟨g, hg, ?_⟩
    cases hv : holdsFilters scope value with
    | true =>
      simp only [ok_bind, hv, if_true] at hentry
      obtain ⟨g', -, rfl⟩ := map_eq_ok.mp hentry
      exact .not
    | false =>
      simp only [ok_bind, hv, Bool.false_eq_true, if_false] at hentry
      exact conditional_of_leaf hentry

theorem accounts_states (s : Schema) : Accounts s (States s) Conditional where
  comparison hc _ _ := .comparison hc
  expression he hr _ := .expression he hr
  negation he hr _ := .inr (.negation he hr)

/-- A filter has a condition exactly if its document states one. -/
theorem conditional_iff_hasCondition (h : compileValue s scope value = .ok f) :
    f.Conditional ↔ HasCondition s (scope, value) := by
  constructor
  · exact (inherited_conditional.compositional (accounts_states s)).compileValue h
  · rintro ⟨b, hv, hs⟩
    obtain ⟨g, hg, hgf⟩ := inherited_conditional.of_visits hv h
    exact hgf (conditional_of_states hs hg)

/-! ## Filters without conditions -/

/-- The constant filter that contributes itself to a combination. -/
def kept : Connective → Filter
  | .and => never
  | .or => always

theorem kept_of_parts (h : f = always ∨ f = never) (hg : g ∈ parts k f) : g = kept k := by
  rcases h with rfl | rfl <;> cases k
  · cases hg
  · exact List.mem_singleton.mp hg
  · exact List.mem_singleton.mp hg
  · cases hg

theorem combine_constant (h : ∀ f ∈ fs, f = always ∨ f = never) :
    combine k fs = always ∨ combine k fs = never := by
  have hkept : ∀ g ∈ fs.flatMap (parts k), g = kept k := by
    intro g hg
    obtain ⟨f, hf, hg⟩ := List.mem_flatMap.mp hg
    exact kept_of_parts (h f hf) hg
  cases hparts : fs.flatMap (parts k) with
  | nil =>
    have hcombine : combine k fs = .logical k [] := by simp [combine, hparts, distinct]
    cases k
    · exact .inl hcombine
    · exact .inr hcombine
  | cons g gs =>
    have hdistinct : distinct (fs.flatMap (parts k)) = [kept k] := by
      rw [hparts] at hkept ⊢
      exact distinct_of_forall_eq hkept (hkept g List.mem_cons_self ▸ List.mem_cons_self)
    have hcombine : combine k fs = kept k := by simp [combine, hdistinct]
    cases k
    · exact .inr hcombine
    · exact .inl hcombine

/-- The filter has a condition or is constant. -/
def Classified (f : Filter) : Prop := f.Conditional ∨ f = always ∨ f = never

theorem Classified.combine (h : ∀ f ∈ fs, f.Classified) : (combine k fs).Classified := by
  by_cases hc : (Filter.combine k fs).Conditional
  · exact .inl hc
  · refine .inr (combine_constant fun f hf => (h f hf).resolve_left fun hcond => hc ?_)
    exact inherited_conditional.combine.mpr ⟨f, hf, hcond⟩

theorem compositional_classified (s : Schema) :
    Compositional s (fun _ _ f => f.Classified) fun _ _ _ f => f.Classified where
  object h := .combine (forall_of_forall₂ h)
  array _ h := .combine (forall_of_forall₂ h)
  leaf _ h := .inl (conditional_of_leaf h)
  within _ h := h
  expression _ _ := .inl .raw
  operator _ h := .inl (conditional_of_leaf h)
  connectiveItems _ h := .combine (forall_of_forall₂ h)
  connectiveEntries _ h := .combine (forall_of_forall₂ h)
  negation _ _ _ := .inl .not
  negatedLeaf _ _ h := .inl (conditional_of_leaf h)

/-- The empty conjunction is what a document compiles to that states no condition and reads as
true. -/
theorem eq_always_iff (h : compileValue s scope value = .ok f) : f = always ↔
    ¬HasCondition s (scope, value) ∧ ∀ v : Valuation Kleene, Says v s scope value .true := by
  rw [← conditional_iff_hasCondition h]
  constructor
  · rintro rfl
    exact ⟨not_conditional_always, fun v => says_iff.mpr ⟨always, h, rfl⟩⟩
  · rintro ⟨hc, htrue⟩
    rcases ((compositional_classified s).compileValue h).resolve_left hc with rfl | rfl
    · rfl
    · let v : Valuation Kleene := ⟨fun _ => .true, fun _ => .true, fun _ => .true, fun _ => rfl⟩
      obtain ⟨g, hg, heval⟩ := says_iff.mp (htrue v)
      cases h.symm.trans hg
      cases heval

/-! ## Lowering -/

/-- Lowering keeps conditions. -/
theorem conditional_lower (h : f.lower s m table = .ok g) : g.Conditional ↔ f.Conditional := by
  induction f generalizing g with
  | comparison c =>
    cases h
    exact ⟨fun _ => .comparison, fun _ => .comparison⟩
  | raw sql =>
    cases h
    exact ⟨fun _ => .raw, fun _ => .raw⟩
  | computed c =>
    obtain ⟨t, -, h⟩ := bind_eq_ok.mp h
    cases h
    exact ⟨fun _ => .computed, fun _ => .raw⟩
  | logical k fs ih =>
    obtain ⟨gs, hgs, h⟩ := bind_eq_ok.mp h
    cases h
    rw [lowerAll_eq_mapM] at hgs
    rw [inherited_conditional.combine, conditional_logical]
    constructor
    · rintro ⟨g, hg, hc⟩
      obtain ⟨f, hf, h⟩ := mem_of_mapM hgs hg
      exact ⟨f, hf, (ih f hf h).mp hc⟩
    · rintro ⟨f, hf, hc⟩
      obtain ⟨g, hg, h⟩ := of_mem_mapM hgs hf
      exact ⟨g, hg, (ih f hf h).mpr hc⟩
  | not f ih =>
    obtain ⟨g, -, h⟩ := bind_eq_ok.mp h
    cases h
    exact ⟨fun _ => .not, fun _ => .not⟩

/-- Lowering gives the empty conjunction only for itself, of what compiles. -/
theorem lower_eq_always_iff (h : compileValue s scope value = .ok f)
    (hl : f.lower s m table = .ok g) : g = always ↔ f = always := by
  constructor
  · rintro rfl
    have hc : ¬f.Conditional := (conditional_lower hl).not.mp not_conditional_always
    rcases ((compositional_classified s).compileValue h).resolve_left hc with rfl | rfl
    · rfl
    · cases hl
  · rintro rfl
    cases hl
    rfl

end RelQuery.Filter

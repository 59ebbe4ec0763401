import RelQuery.Proofs.Filter.Flat
import RelQuery.Proofs.Plan.Negated

/-!
# What a filter reads

A comparison reads the model behind its hops. After lowering, a comparison with a computed attribute
is text, in which the columns of the attribute's expression stand behind the name of that model. An
expression of a request is text as well, but has no column of any table behind its name. `Sourced`
says where the leaves of a filter come from before lowering, `Reads` what they read after it.
-/

namespace RelQuery.Filter

/-- Where a leaf of a filter on `m` comes from. -/
inductive Source (s : Schema) (m : Model) : Filter → Prop
  | comparison {c : Comparison} : Source s m (.comparison c)
  | computed {c : ComputedComparison} {t : Model} {a : Attribute} {e : Computed} :
      s.modelAt m c.path.hops = .ok t → a ∈ t.attributes → a.computed = some e →
      c.expression = e.expression → Source s m (.computed c)
  | expression {value : Document} {sql : String} :
      Expression.lower s.options.dialect value = .ok sql → Source s m (.raw sql)

/-- What a leaf of a lowered filter on `m`, which the statement calls `table`, reads: nothing, or
the model behind hops with a property. -/
inductive Read (s : Schema) (m : Model) (table : String) (P : List String → Prop) : Filter → Prop
  | comparison {c : Comparison} : P c.path.hops → Read s m table P (.comparison c)
  | computed {hops : List String} {t : Model} {a : Attribute} {e : Computed} {op : Operator}
      {literal : String} {negated : Bool} : P hops → s.modelAt m hops = .ok t →
      a ∈ t.attributes → a.computed = some e →
      Read s m table P (.raw (Computed.condition t (joinName table hops) e.expression op literal
        negated))
  | expression {value : Document} {sql : String} :
      Expression.lower s.options.dialect value = .ok sql → Read s m table P (.raw sql)

def Sourced (s : Schema) (m : Model) (f : Filter) : Prop := ∀ l ∈ f.leaves, l.Source s m

def Reads (s : Schema) (m : Model) (table : String) (P : List String → Prop) (f : Filter) : Prop :=
  ∀ l ∈ f.leaves, l.Read s m table P

variable {s : Schema} {m root : Model} {scope inner : Scope} {key table : String}
  {value : Document} {f g : Filter} {fs : List Filter} {k : Connective} {op : Operator}
  {P P' : List String → Prop}

theorem Source.sourced (h : f.Source s m) (hl : f.leaves = [f]) : f.Sourced s m :=
  fun _ h' => List.mem_singleton.mp (hl ▸ h') ▸ h

theorem Sourced.combine (h : ∀ f ∈ fs, f.Sourced s m) : (combine k fs).Sourced s m := by
  intro l hl
  obtain ⟨f, hf, hl⟩ := mem_leaves_combine hl
  exact h f hf l hl

theorem Sourced.merge? {a? b? : Option Filter} (ha : ∀ f, a? = some f → f.Sourced s m)
    (hb : ∀ f, b? = some f → f.Sourced s m) (h : merge? a? b? = some f) : f.Sourced s m := by
  intro l hl
  obtain ⟨g, hg | hg, hl⟩ := mem_leaves_merge? h hl
  · exact ha g hg l hl
  · exact hb g hg l hl

/-! ## What compiles -/

/-- The attribute in scope is one of the model that the hops lead to. -/
structure Scope.Sound (s : Schema) (root : Model) (scope : Scope) : Prop where
  modelAt : s.modelAt root scope.hops = .ok scope.model
  attr : ∀ a, scope.attr = some a → a ∈ scope.model.attributes

theorem sourced_leaf (h : leaf s scope op value = .ok f) (hs : scope.Sound s root) :
    f.Sourced s root := by
  obtain ⟨a, ha, ⟨c, rfl, -⟩ | ⟨e, c, he, rfl, hc, hexpr⟩⟩ := leaf_eq_ok h
  · exact Source.comparison.sourced rfl
  · refine (Source.computed (t := scope.model) ?_ (hs.attr a ha) he hexpr).sourced rfl
    rw [hc]
    exact hs.modelAt

theorem attr_of_fieldRole (h : fieldRole s scope key value = .ok (.within inner)) :
    ∀ a, inner.attr = some a → a ∈ inner.model.attributes := by
  unfold fieldRole at h
  split at h
  · rename_i a ha
    cases h
    intro b hb
    cases hb
    exact List.mem_of_find?_eq_some ha
  · split at h
    · split at h
      · obtain ⟨target, -, h⟩ := bind_eq_ok.mp h
        cases h
        nofun
      · cases h
    · split at h
      · obtain ⟨r, hr, h⟩ := bind_eq_ok.mp h
        cases h
        intro b hb
        cases hb
        exact Path.mem_attributes_walk hr
      · cases h

theorem Scope.Sound.within (hs : scope.Sound s root)
    (h : role s scope key value = .ok (.within inner)) : inner.Sound s root := by
  refine ⟨modelAt_of_role h hs.modelAt, ?_⟩
  unfold role at h
  split at h
  · exact (operatorRole_ne_within h).elim
  · split at h
    · cases h
    · split at h
      · cases h
        exact hs.attr
      · split at h
        · cases h
        · exact attr_of_fieldRole h

theorem compositional_sourced (s : Schema) (root : Model) :
    Compositional s (fun scope _ f => scope.Sound s root → f.Sourced s root)
      fun scope _ _ f => scope.Sound s root → f.Sourced s root where
  object h hs := .combine fun f hf => forall_of_forall₂ h f hf hs
  array _ h hs := .combine fun f hf => forall_of_forall₂ h f hf hs
  leaf _ h hs := sourced_leaf h hs
  within hr h hs := h (hs.within hr)
  expression _ h _ := (Source.expression h).sourced rfl
  operator _ h hs := sourced_leaf h hs
  connectiveItems _ h hs := .combine fun f hf => forall_of_forall₂ h f hf hs
  connectiveEntries _ h hs := .combine fun f hf => forall_of_forall₂ h f hf hs
  negation _ _ h hs := h hs
  negatedLeaf _ _ h hs := sourced_leaf h hs

theorem sourced_of_compile {model : String} (hm : s.model model = .ok m)
    (h : compile s model value = .ok f) : f.Sourced s m := by
  obtain ⟨n, hn, -, h⟩ := compile_eq_ok.mp h
  cases hm.symm.trans hn
  exact (compositional_sourced s m).compileValue h ⟨rfl, nofun⟩

/-! ## What is lowered -/

theorem Read.mono (h : f.Read s m table P) (hP : ∀ hops, P hops → P' hops) :
    f.Read s m table P' := by
  cases h with
  | comparison hc => exact .comparison (hP _ hc)
  | computed hh ht ha he => exact .computed (hP _ hh) ht ha he
  | expression h => exact .expression h

theorem Reads.mono (h : f.Reads s m table P) (hP : ∀ hops, P hops → P' hops) :
    f.Reads s m table P' :=
  fun l hl => (h l hl).mono hP

theorem Reads.merge? {a? b? : Option Filter} (ha : ∀ f, a? = some f → f.Reads s m table P)
    (hb : ∀ f, b? = some f → f.Reads s m table P) (h : merge? a? b? = some f) :
    f.Reads s m table P := by
  intro l hl
  obtain ⟨g, hg | hg, hl⟩ := mem_leaves_merge? h hl
  · exact ha g hg l hl
  · exact hb g hg l hl

/-- A lowered filter reads what the comparisons of the filter point to. -/
theorem Sourced.lower (hf : f.Sourced s m)
    (hP : ∀ path negated, f.Reaches (path, negated) → P path.hops)
    (h : f.lower s m table = .ok g) : g.Reads s m table P := by
  intro l hl
  obtain ⟨k, hk, hl⟩ := mem_leaves_lower h hl
  have hP : ∀ path negated, k.reach? = some (path, negated) → P path.hops :=
    fun path negated hr => hP path negated ⟨k, hk, hr⟩
  cases hf k hk with
  | @comparison c =>
    cases hl
    exact .comparison (hP c.path c.negated rfl)
  | @computed c t a e ht ha he hexpr =>
    obtain ⟨t', ht', hl⟩ := bind_eq_ok.mp hl
    cases ht.symm.trans ht'
    cases hl
    rw [hexpr]
    exact .computed (hP c.path c.negated rfl) ht ha he
  | expression h =>
    cases hl
    exact .expression h

end RelQuery.Filter

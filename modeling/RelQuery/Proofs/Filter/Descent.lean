import Mathlib.Logic.Relation
import RelQuery.Proofs.Filter.Flat
import RelQuery.Proofs.Filter.Inherited

/-!
# The filters inside a document

From a filter document the compiler descends to the filters inside it, each in a scope of its own.
`Descends` is one step, `Visits` the way to any depth. If a document compiles, so does every filter
inside it, and what that filter has of an inherited property, the whole has. What the whole has, it
has from a comparison, an expression or a negation inside it.
-/

namespace RelQuery.Filter

/-! ## Filters inside filters -/

/-- A filter that the compiler reads next, in its scope: the value behind a key that leads on, an
item of a conjunction, or an operand of a connective or a negation. -/
inductive Descends (s : Schema) : Scope × Document → Scope × Document → Prop
  | item {scope : Scope} {items : List Document} {d : Document} : scope.attr = none → d ∈ items →
      Descends s (scope, .arr items) (scope, d)
  | within {scope inner : Scope} {fields : List (String × Document)} {key : String}
      {value : Document} : (key, value) ∈ fields → role s scope key value = .ok (.within inner) →
      Descends s (scope, .obj fields) (inner, value)
  | operand {scope : Scope} {fields : List (String × Document)} {key : String}
      {items : List Document} {k : Connective} {d : Document} : (key, .arr items) ∈ fields →
      role s scope key (.arr items) = .ok (.connective k) → d ∈ items →
      Descends s (scope, .obj fields) (scope, d)
  | operands {scope : Scope} {fields entries : List (String × Document)} {key : String}
      {k : Connective} : (key, .obj entries) ∈ fields →
      role s scope key (.obj entries) = .ok (.connective k) →
      Descends s (scope, .obj fields) (scope, .obj entries)
  | negated {scope : Scope} {fields : List (String × Document)} {key : String} {value : Document} :
      (key, value) ∈ fields → role s scope key value = .ok .negation →
      holdsFilters scope value = true → Descends s (scope, .obj fields) (scope, value)

/-- A filter at any depth of a document, or the document itself. -/
def Visits (s : Schema) : Scope × Document → Scope × Document → Prop :=
  Relation.ReflTransGen (Descends s)

/-- A comparison stands in a document itself: a value without an operator, or an entry whose key is
one. -/
inductive Compares (s : Schema) : Scope × Document → Prop
  | value {scope : Scope} {value : Document} : holdsFilters scope value = false →
      Compares s (scope, value)
  | operator {scope : Scope} {fields : List (String × Document)} {key : String} {value : Document}
      {op : Operator} : (key, value) ∈ fields → role s scope key value = .ok (.operator op) →
      Compares s (scope, .obj fields)
  | negated {scope : Scope} {fields : List (String × Document)} {key : String} {value : Document} :
      (key, value) ∈ fields → role s scope key value = .ok .negation →
      holdsFilters scope value = false → Compares s (scope, .obj fields)

/-- The filter of a comparison that stands in a document itself. -/
inductive Stands (s : Schema) : Scope × Document → Filter → Prop
  | value {scope : Scope} {value : Document} {l : Filter} : holdsFilters scope value = false →
      leaf s scope (impliedOperator value) value = .ok l → Stands s (scope, value) l
  | operator {scope : Scope} {fields : List (String × Document)} {key : String} {value : Document}
      {op : Operator} {l : Filter} : (key, value) ∈ fields →
      role s scope key value = .ok (.operator op) → leaf s scope op value = .ok l →
      Stands s (scope, .obj fields) l
  | negated {scope : Scope} {fields : List (String × Document)} {key : String} {value : Document}
      {l : Filter} : (key, value) ∈ fields → role s scope key value = .ok .negation →
      holdsFilters scope value = false → leaf s scope .not value = .ok l →
      Stands s (scope, .obj fields) l

variable {s : Schema} {scope : Scope} {key : String} {value d : Document} {f : Filter}
  {items : List Document} {fields : List (String × Document)} {fs : List Filter}
  {a b : Scope × Document} {P : Filter → Prop}

theorem Stands.compares (h : Stands s a f) : Compares s a := by
  cases h with
  | value hv _ => exact .value hv
  | operator he hr _ => exact .operator he hr
  | negated he hr hv _ => exact .negated he hr hv

theorem Stands.exists_leaf (h : Stands s a f) : ∃ op value, leaf s a.1 op value = .ok f := by
  cases h with
  | value _ h => exact ⟨_, _, h⟩
  | operator _ _ h => exact ⟨_, _, h⟩
  | negated _ _ _ h => exact ⟨_, _, h⟩

/-! ## Items and entries -/

theorem compileItems_eq_mapM : compileItems s scope items = items.mapM (compileValue s scope) := by
  induction items with
  | nil => rfl
  | cons d items ih => simp [compileItems, ih, List.mapM_cons]

theorem compileFields_eq_mapM :
    compileFields s scope fields = fields.mapM fun e => compileEntry s scope e.1 e.2 := by
  induction fields with
  | nil => simp only [compileFields, List.mapM_nil]; rfl
  | cons e fields ih => rw [compileFields_cons, ih, List.mapM_cons]

theorem compile_item (h : compileItems s scope items = .ok fs) (hd : d ∈ items) :
    ∃ f ∈ fs, compileValue s scope d = .ok f :=
  of_mem_mapM (compileItems_eq_mapM ▸ h) hd

/-- The filter of an object is the conjunction of the filters of its entries. -/
theorem compile_field (h : compileValue s scope (.obj fields) = .ok f)
    (he : (key, value) ∈ fields) :
    ∃ fs, f = all fs ∧ ∃ g ∈ fs, compileEntry s scope key value = .ok g := by
  rw [compileValue] at h
  obtain ⟨fs, hfs, rfl⟩ := map_eq_ok.mp h
  rw [compileFields_eq_mapM] at hfs
  obtain ⟨g, hg, hentry⟩ := of_mem_mapM hfs he
  exact ⟨fs, rfl, g, hg, hentry⟩

/-! ## Down to a filter inside -/

section
variable (hP : Inherited P)
include hP

/-- What compiles, compiles one step further in, and inherits what is found there. -/
theorem Inherited.of_descends (hd : Descends s a b) (h : compileValue s a.1 a.2 = .ok f) :
    ∃ g, compileValue s b.1 b.2 = .ok g ∧ (P g → P f) := by
  cases hd with
  | item hattr hd =>
    simp only [compileValue, hattr, Option.isNone_none, if_true] at h
    obtain ⟨fs, hfs, rfl⟩ := map_eq_ok.mp h
    obtain ⟨g, hg, hcompile⟩ := compile_item hfs hd
    exact ⟨g, hcompile, fun hPg => hP.combine.mpr ⟨g, hg, hPg⟩⟩
  | within he hrole =>
    obtain ⟨fs, rfl, g, hg, hentry⟩ := compile_field h he
    rw [compileEntry, hrole] at hentry
    exact ⟨g, hentry, fun hPg => hP.combine.mpr ⟨g, hg, hPg⟩⟩
  | operand he hrole hd =>
    obtain ⟨fs, rfl, g, hg, hentry⟩ := compile_field h he
    rw [compileEntry, hrole] at hentry
    obtain ⟨gs, hgs, rfl⟩ := map_eq_ok.mp hentry
    obtain ⟨g', hg', hcompile⟩ := compile_item hgs hd
    exact ⟨g', hcompile, fun hPg =>
      hP.combine.mpr ⟨_, hg, hP.combine.mpr ⟨g', hg', hPg⟩⟩⟩
  | operands he hrole =>
    obtain ⟨fs, rfl, g, hg, hentry⟩ := compile_field h he
    rw [compileEntry, hrole] at hentry
    obtain ⟨gs, hgs, rfl⟩ := map_eq_ok.mp hentry
    refine ⟨all gs, by simp [compileValue, hgs], fun hPg => ?_⟩
    exact hP.combine.mpr ⟨_, hg, hP.combine.mpr (hP.combine.mp hPg)⟩
  | negated he hrole hv =>
    obtain ⟨fs, rfl, g, hg, hentry⟩ := compile_field h he
    rw [compileEntry, hrole] at hentry
    simp only [ok_bind, hv, if_true] at hentry
    obtain ⟨g', hg', rfl⟩ := map_eq_ok.mp hentry
    exact ⟨g', hg', fun hPg => hP.combine.mpr ⟨_, hg, hP.not hPg⟩⟩

/-- What compiles, compiles at every depth, and inherits what is found there. -/
theorem Inherited.of_visits (hv : Visits s a b) (h : compileValue s a.1 a.2 = .ok f) :
    ∃ g, compileValue s b.1 b.2 = .ok g ∧ (P g → P f) := by
  induction hv with
  | refl => exact ⟨f, h, id⟩
  | tail _ hd ih =>
    obtain ⟨g, hg, hPg⟩ := ih
    obtain ⟨g', hg', hPg'⟩ := hP.of_descends hd hg
    exact ⟨g', hg', hPg ∘ hPg'⟩

end

/-- A comparison that stands in a document is inherited by its filter. -/
theorem Inherited.of_compares (hP : Inherited P) (hc : Compares s (scope, value))
    (h : compileValue s scope value = .ok f)
    (hleaf : ∀ op d g, leaf s scope op d = .ok g → P g) : P f := by
  cases hc with
  | value hv => exact hleaf _ _ _ ((compileValue_eq_ok_leaf hv).mp h)
  | operator he hrole =>
    obtain ⟨fs, rfl, g, hg, hentry⟩ := compile_field h he
    rw [compileEntry, hrole] at hentry
    exact hP.combine.mpr ⟨g, hg, hleaf _ _ _ hentry⟩
  | negated he hrole hv =>
    obtain ⟨fs, rfl, g, hg, hentry⟩ := compile_field h he
    rw [compileEntry, hrole] at hentry
    simp only [ok_bind, hv, Bool.false_eq_true, if_false] at hentry
    exact hP.combine.mpr ⟨g, hg, hleaf _ _ _ hentry⟩

/-! ## Up from a filter inside -/

/-- Documents of a kind account for a property: a filter has it from a comparison, from an
expression or from a negation that stands in such a document. -/
structure Accounts (s : Schema) (K : Scope × Document → Prop) (P : Filter → Prop) : Prop where
  comparison : ∀ {a op value f}, Compares s a → leaf s a.1 op value = .ok f → P f → K a
  expression : ∀ {scope fields key value sql}, (key, value) ∈ fields →
    role s scope key value = .ok .expression → P (.raw sql) → K (scope, .obj fields)
  negation : ∀ {scope fields key value f}, (key, value) ∈ fields →
    role s scope key value = .ok .negation → P (.not f) → P f ∨ K (scope, .obj fields)

variable {K : Scope × Document → Prop}

theorem exists_visits_of_descends (hd : Descends s a b) (h : ∃ c, Visits s b c ∧ K c) :
    ∃ c, Visits s a c ∧ K c := by
  obtain ⟨c, hv, hc⟩ := h
  exact ⟨c, .head hd hv, hc⟩

/-- What a combination has from one of its operands, a filter has from documents that account for
it; an entry has it from there in every object with the entry. -/
theorem compositional_visits (hcombine : ∀ {k fs}, P (combine k fs) → ∃ f ∈ fs, P f)
    (hstands : ∀ {a f}, Stands s a f → P f → K a)
    (hexpression : ∀ {scope fields key value sql}, (key, value) ∈ fields →
      role s scope key value = .ok .expression → P (.raw sql) → K (scope, .obj fields))
    (hnegation : ∀ {scope fields key value f}, (key, value) ∈ fields →
      role s scope key value = .ok .negation → P (.not f) → P f ∨ K (scope, .obj fields)) :
    Compositional s (fun scope value f => P f → ∃ b, Visits s (scope, value) b ∧ K b)
      fun scope key value f => P f → ∀ fields, (key, value) ∈ fields →
        ∃ b, Visits s (scope, .obj fields) b ∧ K b where
  object h hf := by
    obtain ⟨f, hmem, hf⟩ := hcombine hf
    obtain ⟨e, he, h⟩ := exists_of_forall₂ h hmem
    exact h hf _ he
  array hattr h hf := by
    obtain ⟨f, hmem, hf⟩ := hcombine hf
    obtain ⟨d, hd, h⟩ := exists_of_forall₂ h hmem
    exact exists_visits_of_descends (.item hattr hd) (h hf)
  leaf hv h hf := ⟨_, .refl, hstands (.value hv h) hf⟩
  within hr h hf fields he := exists_visits_of_descends (.within he hr) (h hf)
  expression hr _ hf fields he := ⟨_, .refl, hexpression he hr hf⟩
  operator hr h hf fields he := ⟨_, .refl, hstands (.operator he hr h) hf⟩
  connectiveItems hr h hf fields he := by
    obtain ⟨f, hmem, hf⟩ := hcombine hf
    obtain ⟨d, hd, h⟩ := exists_of_forall₂ h hmem
    exact exists_visits_of_descends (.operand he hr hd) (h hf)
  connectiveEntries hr h hf fields he := by
    obtain ⟨f, hmem, hf⟩ := hcombine hf
    obtain ⟨e, he', h⟩ := exists_of_forall₂ h hmem
    exact exists_visits_of_descends (.operands he hr) (h hf _ he')
  negation hr hv h hf fields he := by
    rcases hnegation he hr hf with hf | hk
    · exact exists_visits_of_descends (.negated he hr hv) (h hf)
    · exact ⟨_, .refl, hk⟩
  negatedLeaf hr hv h hf fields he := ⟨_, .refl, hstands (.negated he hr hv h) hf⟩

/-- What a filter has of an inherited property, it has from documents that account for it. -/
theorem Inherited.compositional (hP : Inherited P) (hK : Accounts s K P) :
    Compositional s (fun scope value f => P f → ∃ b, Visits s (scope, value) b ∧ K b)
      fun scope key value f => P f → ∀ fields, (key, value) ∈ fields →
        ∃ b, Visits s (scope, .obj fields) b ∧ K b := by
  refine compositional_visits hP.combine.mp (fun h hf => ?_) hK.expression hK.negation
  obtain ⟨op, value, hleaf⟩ := h.exists_leaf
  exact hK.comparison h.compares hleaf hf

end RelQuery.Filter

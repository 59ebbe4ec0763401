import Mathlib.Data.List.Forall2
import RelQuery.Filter.Compile
import RelQuery.Proofs.Except

/-!
# Induction along the compiler

A filter document is compiled entry by entry and item by item. `Compositional` collects what a
property of documents and their filters must satisfy at each step, and `Compositional.compileValue`
concludes that it holds of all that compiles.
-/

namespace RelQuery.Filter

/-- Documents that hold further filters: objects, and at a model also arrays. -/
def holdsFilters (scope : Scope) : Document → Bool
  | .obj _ => true
  | .arr _ => scope.attr.isNone
  | _ => false

/-- The operator of a value that stands without one. -/
def impliedOperator : Document → Operator
  | .arr _ => .isIn
  | .null => .is
  | _ => .eq

/-! ## One entry at a time -/

/-- The filter of one entry of an object. -/
def compileEntry (s : Schema) (scope : Scope) (key : String) (value : Document) :
    Except PlanError Filter := do
  match ← role s scope key value with
  | .within inner => compileValue s inner value
  | .expression => .raw <$> Expression.lower s.options.dialect value
  | .operator op => leaf s scope op value
  | .connective k =>
    match value with
    | .arr items => combine k <$> compileItems s scope items
    | .obj entries => combine k <$> compileFields s scope entries
    | value => malformed (.connectiveValue (match k with | .and => "and" | .or => "or") value)
  | .negation =>
    if holdsFilters scope value then .not <$> compileValue s scope value
    else leaf s scope .not value

variable {s : Schema} {scope : Scope} {key : String} {value : Document} {f : Filter}

theorem compileFields_cons {fields : List (String × Document)} :
    compileFields s scope ((key, value) :: fields) = (do
      let f ← compileEntry s scope key value
      return f :: (← compileFields s scope fields)) := by
  rw [compileFields, compileEntry]
  cases role s scope key value with
  | error e => rfl
  | ok r =>
    cases r with
    | negation =>
      cases value with
      | arr items => by_cases h : scope.attr.isNone <;> simp [holdsFilters, compileValue, h]
      | obj entries => simp [holdsFilters, compileValue]
      | _ => rfl
    | connective k => cases value <;> rfl
    | _ => rfl

/-- A value that holds no filters is compared with the attribute in scope. -/
theorem compileValue_eq_ok_leaf (hv : holdsFilters scope value = false) :
    compileValue s scope value = .ok f ↔ leaf s scope (impliedOperator value) value = .ok f := by
  cases value with
  | obj fields => cases hv
  | arr items =>
    have hv : scope.attr.isNone = false := hv
    simp [compileValue, impliedOperator, hv]
  | null => simp [compileValue, impliedOperator]
  | _ =>
    by_cases hn : scope.attr = none
    · simp [compileValue, leaf, impliedOperator, malformed, hn]
    · simp [compileValue, impliedOperator, hn]

/-- The comparison of the attribute in scope: with its expression, or with its column. -/
theorem leaf_cases {op : Operator} (h : leaf s scope op value = .ok f) :
    ∃ a op', scope.attr = some a ∧ op' = Operand.testForNull op value ∧
      Operand.checkShape op' value a.name = .ok () ∧
      ((∃ e literal, a.computed = some e ∧
          Operand.literal a.type op' value a.name = .ok literal ∧
          f = .computed ⟨⟨scope.hops, a.name, []⟩, e.expression, op', literal, scope.negated⟩) ∨
        ∃ operand, a.computed = none ∧
          (if !scope.documentPath.isEmpty || op'.isPattern then operand = .plain value
            else Operand.ofValue a.type s.options.dialect value a.name = .ok operand) ∧
          f = .comparison ⟨⟨scope.hops, a.name, scope.documentPath⟩, op', operand,
            if !scope.documentPath.isEmpty then none else some a.type, scope.negated⟩) := by
  unfold leaf at h
  split at h
  · cases h
  · rename_i a ha
    obtain ⟨_, hshape, h⟩ := bind_eq_ok.mp h
    refine ⟨a, _, ha, rfl, hshape, ?_⟩
    split at h
    · rename_i e he
      obtain ⟨literal, hliteral, h⟩ := bind_eq_ok.mp h
      cases h
      exact .inl ⟨e, literal, he, hliteral, rfl⟩
    · rename_i hstored
      dsimp only at h
      split at h
      · rename_i hplain
        cases h
        exact .inr ⟨_, hstored, by rw [if_pos hplain], rfl⟩
      · rename_i hread
        obtain ⟨operand, hoperand, h⟩ := bind_eq_ok.mp h
        cases h
        exact .inr ⟨operand, hstored, by rw [if_neg hread, hoperand], rfl⟩

theorem compile_eq_ok {model : String} : compile s model value = .ok f ↔
    ∃ m, s.model model = .ok m ∧ isBracket value = true ∧
      compileValue s (.root m) value = .ok f := by
  unfold compile
  constructor
  · intro h
    obtain ⟨m, hm, h⟩ := bind_eq_ok.mp h
    split at h
    · exact ⟨m, hm, ‹_›, h⟩
    · cases h
  · rintro ⟨m, hm, hv, h⟩
    rw [hm, ok_bind, if_pos hv, h]

/-! ## Induction -/

/-- A property of documents and of entries, with the filters they compile to in a scope, that every
step of the compiler keeps. -/
structure Compositional (s : Schema) (P : Scope → Document → Filter → Prop)
    (E : Scope → String → Document → Filter → Prop) : Prop where
  object : ∀ {scope fields fs}, List.Forall₂ (fun e f => E scope e.1 e.2 f) fields fs →
    P scope (.obj fields) (all fs)
  array : ∀ {scope items fs}, scope.attr = none → List.Forall₂ (P scope) items fs →
    P scope (.arr items) (all fs)
  leaf : ∀ {scope value f}, holdsFilters scope value = false →
    leaf s scope (impliedOperator value) value = .ok f → P scope value f
  within : ∀ {scope key value inner f}, role s scope key value = .ok (.within inner) →
    P inner value f → E scope key value f
  expression : ∀ {scope key value sql}, role s scope key value = .ok .expression →
    Expression.lower s.options.dialect value = .ok sql → E scope key value (.raw sql)
  operator : ∀ {scope key value op f}, role s scope key value = .ok (.operator op) →
    Filter.leaf s scope op value = .ok f → E scope key value f
  connectiveItems : ∀ {scope key items k fs}, role s scope key (.arr items) = .ok (.connective k) →
    List.Forall₂ (P scope) items fs → E scope key (.arr items) (combine k fs)
  connectiveEntries : ∀ {scope key fields k fs},
    role s scope key (.obj fields) = .ok (.connective k) →
    List.Forall₂ (fun e f => E scope e.1 e.2 f) fields fs → E scope key (.obj fields) (combine k fs)
  negation : ∀ {scope key value f}, role s scope key value = .ok .negation →
    holdsFilters scope value = true → P scope value f → E scope key value (.not f)
  negatedLeaf : ∀ {scope key value f}, role s scope key value = .ok .negation →
    holdsFilters scope value = false → Filter.leaf s scope .not value = .ok f → E scope key value f

variable {P : Scope → Document → Filter → Prop} {E : Scope → String → Document → Filter → Prop}

/-- The property holds of a document as a whole, of its items and of its entries, in every scope. -/
structure Obeys (s : Schema) (P : Scope → Document → Filter → Prop)
    (E : Scope → String → Document → Filter → Prop) (value : Document) : Prop where
  whole : ∀ {scope f}, compileValue s scope value = .ok f → P scope value f
  items : ∀ {scope items fs}, value = .arr items → compileItems s scope items = .ok fs →
    List.Forall₂ (P scope) items fs
  entries : ∀ {scope fields fs}, value = .obj fields → compileFields s scope fields = .ok fs →
    List.Forall₂ (fun e f => E scope e.1 e.2 f) fields fs

theorem forall₂_of_compileItems {items : List Document} {fs : List Filter}
    (hv : ∀ d ∈ items, Obeys s P E d)
    (h : compileItems s scope items = .ok fs) : List.Forall₂ (P scope) items fs := by
  induction items generalizing fs with
  | nil =>
    cases h
    exact .nil
  | cons d items ih =>
    obtain ⟨f, hf, h⟩ := bind_eq_ok.mp h
    obtain ⟨fs, hfs, h⟩ := bind_eq_ok.mp h
    cases h
    exact .cons ((hv d List.mem_cons_self).whole hf)
      (ih (fun d hd => hv d (List.mem_cons_of_mem _ hd)) hfs)

namespace Compositional

variable (H : Compositional s P E)
include H

theorem obeys_leaf (hi : ∀ items, value ≠ .arr items) (he : ∀ fields, value ≠ .obj fields) :
    Obeys s P E value where
  whole {scope f} h := by
    have hv : holdsFilters scope value = false := by
      cases value with
      | arr items => exact (hi items rfl).elim
      | obj fields => exact (he fields rfl).elim
      | _ => rfl
    exact H.leaf hv ((compileValue_eq_ok_leaf hv).mp h)
  items h := (hi _ h).elim
  entries h := (he _ h).elim

theorem entry (hv : Obeys s P E value) (h : compileEntry s scope key value = .ok f) :
    E scope key value f := by
  obtain ⟨r, hr, h⟩ := bind_eq_ok.mp h
  cases r with
  | within inner => exact H.within hr (hv.whole h)
  | expression =>
    obtain ⟨sql, hsql, rfl⟩ := map_eq_ok.mp h
    exact H.expression hr hsql
  | operator op => exact H.operator hr h
  | connective k =>
    cases value with
    | arr items =>
      obtain ⟨fs, hfs, rfl⟩ := map_eq_ok.mp h
      exact H.connectiveItems hr (hv.items rfl hfs)
    | obj fields =>
      obtain ⟨fs, hfs, rfl⟩ := map_eq_ok.mp h
      exact H.connectiveEntries hr (hv.entries rfl hfs)
    | _ => cases h
  | negation =>
    dsimp only at h
    split at h
    · obtain ⟨g, hg, rfl⟩ := map_eq_ok.mp h
      exact H.negation hr ‹_› (hv.whole hg)
    · exact H.negatedLeaf hr (Bool.eq_false_iff.mpr ‹_›) h

theorem entries {fields : List (String × Document)} {fs : List Filter}
    (hv : ∀ e ∈ fields, Obeys s P E e.2) (h : compileFields s scope fields = .ok fs) :
    List.Forall₂ (fun e f => E scope e.1 e.2 f) fields fs := by
  induction fields generalizing fs with
  | nil =>
    cases h
    exact .nil
  | cons e fields ih =>
    rw [compileFields_cons] at h
    obtain ⟨f, hf, h⟩ := bind_eq_ok.mp h
    obtain ⟨fs, hfs, h⟩ := bind_eq_ok.mp h
    cases h
    exact .cons (H.entry (hv e List.mem_cons_self) hf)
      (ih (fun e he => hv e (List.mem_cons_of_mem _ he)) hfs)

theorem obeys_array {items : List Document} (hv : ∀ d ∈ items, Obeys s P E d) :
    Obeys s P E (.arr items) where
  whole {scope f} h := by
    by_cases hs : holdsFilters scope (.arr items) = true
    · have hn : scope.attr = none := Option.isNone_iff_eq_none.mp hs
      simp only [Filter.compileValue, hn, Option.isNone_none, if_true] at h
      obtain ⟨fs, hfs, rfl⟩ := map_eq_ok.mp h
      exact H.array hn (forall₂_of_compileItems hv hfs)
    · have hs := Bool.eq_false_iff.mpr hs
      exact H.leaf hs ((compileValue_eq_ok_leaf hs).mp h)
  items heq h := by
    cases heq
    exact forall₂_of_compileItems hv h
  entries heq := nomatch heq

theorem obeys_object {fields : List (String × Document)} (hv : ∀ e ∈ fields, Obeys s P E e.2) :
    Obeys s P E (.obj fields) where
  whole h := by
    rw [Filter.compileValue] at h
    obtain ⟨fs, hfs, rfl⟩ := map_eq_ok.mp h
    exact H.object (H.entries hv hfs)
  items heq := nomatch heq
  entries heq h := by
    cases heq
    exact H.entries hv h

theorem obeys (value : Document) : Obeys s P E value := by
  induction value with
  | null => exact H.obeys_leaf nofun nofun
  | bool b => exact H.obeys_leaf nofun nofun
  | num n => exact H.obeys_leaf nofun nofun
  | str t => exact H.obeys_leaf nofun nofun
  | arr items ih => exact H.obeys_array ih
  | obj fields ih => exact H.obeys_object ih

/-- A compositional property holds of all that compiles. -/
theorem compileValue (h : compileValue s scope value = .ok f) : P scope value f :=
  (H.obeys value).whole h

end Compositional

end RelQuery.Filter

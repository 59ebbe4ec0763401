import RelQuery.Proofs.Filter.CompileInduction
import RelQuery.Proofs.Filter.Value

/-!
# The direct reading of a filter document

`Says` reads a filter document as a truth value, without a tree in between: objects and arrays of
model filters are conjunctions, connectives and `_notOp` do what their names say, and everything
else is the comparison of the attribute in scope. The reading exists exactly for the documents that
compile, and it is the value of the compiled filter.
-/

namespace RelQuery.Filter

universe u

section
variable {α : Type u} [Lattice α] [BoundedOrder α] [Compl α] (v : Valuation α) (s : Schema)

mutual

/-- The truth value that a document says in a scope. -/
inductive Says : Scope → Document → α → Prop
  | object : EntriesSay scope fields xs → Says scope (.obj fields) (Connective.and.fold xs)
  | array : scope.attr = none → ItemsSay scope items xs →
      Says scope (.arr items) (Connective.and.fold xs)
  | leaf : holdsFilters scope value = false →
      leaf s scope (impliedOperator value) value = .ok f → Says scope value (f.eval v)

/-- The truth value of one entry of an object. -/
inductive EntrySays : Scope → String → Document → α → Prop
  | within {inner : Scope} : role s scope key value = .ok (.within inner) →
      Says inner value x → EntrySays scope key value x
  | expression : role s scope key value = .ok .expression →
      Expression.lower s.options.dialect value = .ok sql → EntrySays scope key value (v.raw sql)
  | operator : role s scope key value = .ok (.operator op) → Filter.leaf s scope op value = .ok f →
      EntrySays scope key value (f.eval v)
  | connectiveItems : role s scope key (.arr items) = .ok (.connective k) →
      ItemsSay scope items xs → EntrySays scope key (.arr items) (k.fold xs)
  | connectiveEntries : role s scope key (.obj fields) = .ok (.connective k) →
      EntriesSay scope fields xs → EntrySays scope key (.obj fields) (k.fold xs)
  | negation : role s scope key value = .ok .negation → holdsFilters scope value = true →
      Says scope value x → EntrySays scope key value xᶜ
  | negatedLeaf : role s scope key value = .ok .negation → holdsFilters scope value = false →
      Filter.leaf s scope .not value = .ok f → EntrySays scope key value (f.eval v)

inductive ItemsSay : Scope → List Document → List α → Prop
  | nil : ItemsSay scope [] []
  | cons : Says scope value x → ItemsSay scope values xs →
      ItemsSay scope (value :: values) (x :: xs)

inductive EntriesSay : Scope → List (String × Document) → List α → Prop
  | nil : EntriesSay scope [] []
  | cons : EntrySays scope key value x → EntriesSay scope fields xs →
      EntriesSay scope ((key, value) :: fields) (x :: xs)

end

end

variable {s : Schema} {scope : Scope} {key : String} {value : Document} {f : Filter}

/-! ## What is said is compiled -/

variable {α : Type u} [Lattice α] [BoundedOrder α] [Compl α] {v : Valuation α} {x : α} {xs : List α}

mutual

theorem Says.compiles : ∀ {scope value x}, Says v s scope value x →
    ∃ f, compileValue s scope value = .ok f ∧ f.eval v = x
  | _, _, _, .object h => by
    obtain ⟨fs, hfs, rfl⟩ := h.compiles
    exact ⟨all fs, by simp [compileValue, hfs], eval_all⟩
  | _, _, _, .array hn h => by
    obtain ⟨fs, hfs, rfl⟩ := h.compiles
    exact ⟨all fs, by simp [compileValue, hfs, hn], eval_all⟩
  | _, _, _, .leaf hv h => ⟨_, (compileValue_eq_ok_leaf hv).mpr h, rfl⟩

theorem EntrySays.compiles : ∀ {scope key value x}, EntrySays v s scope key value x →
    ∃ f, compileEntry s scope key value = .ok f ∧ f.eval v = x
  | _, _, _, _, .within hr h => by
    obtain ⟨f, hf, rfl⟩ := h.compiles
    exact ⟨f, by simp [compileEntry, hr, hf], rfl⟩
  | _, _, _, _, .expression hr h => ⟨.raw _, by simp [compileEntry, hr, h], rfl⟩
  | _, _, _, _, .operator hr h => ⟨_, by simp [compileEntry, hr, h], rfl⟩
  | _, _, _, _, .connectiveItems hr h => by
    obtain ⟨fs, hfs, rfl⟩ := h.compiles
    exact ⟨combine _ fs, by simp [compileEntry, hr, hfs], eval_combine⟩
  | _, _, _, _, .connectiveEntries hr h => by
    obtain ⟨fs, hfs, rfl⟩ := h.compiles
    exact ⟨combine _ fs, by simp [compileEntry, hr, hfs], eval_combine⟩
  | _, _, _, _, .negation hr hv h => by
    obtain ⟨f, hf, rfl⟩ := h.compiles
    exact ⟨.not f, by simp [compileEntry, hr, hv, hf], rfl⟩
  | _, _, _, _, .negatedLeaf hr hv h => ⟨_, by simp [compileEntry, hr, hv, h], rfl⟩

theorem ItemsSay.compiles : ∀ {scope items xs}, ItemsSay v s scope items xs →
    ∃ fs, compileItems s scope items = .ok fs ∧ fs.map (eval v) = xs
  | _, _, _, .nil => ⟨[], rfl, rfl⟩
  | _, _, _, .cons h hs => by
    obtain ⟨f, hf, rfl⟩ := h.compiles
    obtain ⟨fs, hfs, rfl⟩ := hs.compiles
    exact ⟨f :: fs, by simp [compileItems, hf, hfs], rfl⟩

theorem EntriesSay.compiles : ∀ {scope fields xs}, EntriesSay v s scope fields xs →
    ∃ fs, compileFields s scope fields = .ok fs ∧ fs.map (eval v) = xs
  | _, _, _, .nil => ⟨[], rfl, rfl⟩
  | _, _, _, .cons h hs => by
    obtain ⟨f, hf, rfl⟩ := h.compiles
    obtain ⟨fs, hfs, rfl⟩ := hs.compiles
    exact ⟨f :: fs, by simp [compileFields_cons, hf, hfs], rfl⟩

end

/-! ## What is compiled is said -/

theorem itemsSay_of_forall₂ {items : List Document} {fs : List Filter}
    (h : List.Forall₂ (fun d f => Says v s scope d (f.eval v)) items fs) :
    ItemsSay v s scope items (fs.map (eval v)) := by
  induction h with
  | nil => exact .nil
  | cons h _ ih => exact .cons h ih

theorem entriesSay_of_forall₂ {fields : List (String × Document)} {fs : List Filter}
    (h : List.Forall₂ (fun e f => EntrySays v s scope e.1 e.2 (f.eval v)) fields fs) :
    EntriesSay v s scope fields (fs.map (eval v)) := by
  induction h with
  | nil => exact .nil
  | cons h _ ih => exact .cons h ih

theorem compositional_reading (v : Valuation α) (s : Schema) :
    Compositional s (fun scope value f => Says v s scope value (f.eval v))
      fun scope key value f => EntrySays v s scope key value (f.eval v) where
  object h := by
    rw [eval_all]
    exact .object (entriesSay_of_forall₂ h)
  array hn h := by
    rw [eval_all]
    exact .array hn (itemsSay_of_forall₂ h)
  leaf := .leaf
  within := .within
  expression := .expression
  operator := .operator
  connectiveItems hr h := by
    rw [eval_combine]
    exact .connectiveItems hr (itemsSay_of_forall₂ h)
  connectiveEntries hr h := by
    rw [eval_combine]
    exact .connectiveEntries hr (entriesSay_of_forall₂ h)
  negation := .negation
  negatedLeaf := .negatedLeaf

/-- A document says the value of what it compiles to, and nothing if it does not compile. -/
theorem says_iff : Says v s scope value x ↔
    ∃ f, compileValue s scope value = .ok f ∧ f.eval v = x := by
  constructor
  · exact Says.compiles
  · rintro ⟨f, h, rfl⟩
    exact (compositional_reading v s).compileValue h

/-! ## The keys of connectives -/

/-- An operator key is its name between `_` and `Op`. -/
theorem eq_of_operatorName? {name : String} (h : operatorName? key = some name) :
    key = "_" ++ name ++ "Op" := by
  unfold operatorName? at h
  split at h
  · rename_i cs hkey
    dsimp only at h
    split at h
    · rename_i hends
      cases h
      rw [← String.toList_inj]
      simp [hkey, ← hends.1, List.take_append_drop]
    · cases h
  · cases h

/-- What a key asks for: a connective or the negation by a key of its own, or something else. -/
inductive Role.AskedBy (key : String) : Role → Prop
  | and : key = "_andOp" → AskedBy key (.connective .and)
  | or : key = "_orOp" → AskedBy key (.connective .or)
  | negation : key = "_notOp" → AskedBy key .negation
  | operator {op : Operator} : AskedBy key (.operator op)
  | expression : AskedBy key .expression
  | within {inner : Scope} : AskedBy key (.within inner)

variable {r : Role}

theorem askedBy_of_fieldRole (h : fieldRole s scope key value = .ok r) : r.AskedBy key := by
  unfold fieldRole at h
  split at h
  · cases h
    exact .within
  · split at h
    · split at h
      · obtain ⟨target, -, h⟩ := bind_eq_ok.mp h
        cases h
        exact .within
      · cases h
    · split at h
      · obtain ⟨resolved, -, h⟩ := bind_eq_ok.mp h
        cases h
        exact .within
      · cases h

theorem askedBy_of_operatorRole {name : String} (h : operatorRole name = .ok r) :
    r.AskedBy ("_" ++ name ++ "Op") := by
  unfold operatorRole at h
  split_ifs at h with hand hor hnot
  · cases h
    exact .and (hand ▸ rfl)
  · cases h
    exact .or (hor ▸ rfl)
  · cases h
    exact .negation (hnot ▸ rfl)
  · split at h <;> cases h
    exact .operator

theorem askedBy_of_role (h : role s scope key value = .ok r) : r.AskedBy key := by
  unfold role at h
  split at h
  · rename_i name hname
    cases eq_of_operatorName? hname
    exact askedBy_of_operatorRole h
  · split_ifs at h
    · cases h
      exact .expression
    · cases h
      exact .within
    · cases h
    · exact askedBy_of_fieldRole h

/-- Each connective and the negation have one key, wherever it stands. -/
theorem role_keys : (role s scope key value = .ok (.connective .and) ↔ key = "_andOp") ∧
    (role s scope key value = .ok (.connective .or) ↔ key = "_orOp") ∧
    (role s scope key value = .ok .negation ↔ key = "_notOp") := by
  refine ⟨⟨fun h => ?_, ?_⟩, ⟨fun h => ?_, ?_⟩, ⟨fun h => ?_, ?_⟩⟩
  case refine_1 =>
    cases askedBy_of_role h with
    | and hkey => exact hkey
  case refine_3 =>
    cases askedBy_of_role h with
    | or hkey => exact hkey
  case refine_5 =>
    cases askedBy_of_role h with
    | negation hkey => exact hkey
  all_goals
    rintro rfl
    rfl

/-! ## The value of a compiled filter -/

/-- The value of a compiled filter is the one truth value that its document says about the model,
under every assignment of truth values to leaves. Wherever they stand, `_andOp` and `_orOp` are the
connectives and `_notOp` negates. -/
theorem compile_reading {model : String} (v : Valuation α)
    (h : compile s model value = .ok f) :
    (∃ m, s.model model = .ok m ∧ ∀ x, Says v s (.root m) value x ↔ x = f.eval v) ∧
    ∀ scope key value, (role s scope key value = .ok (.connective .and) ↔ key = "_andOp") ∧
      (role s scope key value = .ok (.connective .or) ↔ key = "_orOp") ∧
      (role s scope key value = .ok .negation ↔ key = "_notOp") := by
  refine ⟨?_, fun scope key value => role_keys⟩
  obtain ⟨m, hm, h⟩ := bind_eq_ok.mp h
  refine ⟨m, hm, fun x => ?_⟩
  split at h
  · rw [says_iff, h]
    constructor
    · rintro ⟨g, hg, rfl⟩
      rw [Except.ok.inj hg]
    · rintro rfl
      exact ⟨f, rfl, rfl⟩
  · cases h

/-! ### People without a key, without the name, or with either -/

def people : Schema where
  models := [⟨"Person", "people", [⟨"id", "id", .integer, false, true, none⟩,
    ⟨"name", "name", .string, true, false, none⟩], []⟩]
  options := {}

def nameless : Document := .obj [("_orOp", .arr [.obj [("_notOp", .obj [("name", .str "Ada")])],
  .obj [("_orOp", .obj [("name", .str "Ada"), ("id", .null)])], .obj [("_orOp", .arr [])]])]

def named : Filter := .comparison ⟨⟨[], "name", []⟩, .eq, .plain (.str "Ada"), some .string, false⟩

def keyless : Filter := .comparison ⟨⟨[], "id", []⟩, .is, .plain .null, some .integer, false⟩

/-- A row of nulls: only tests for null are known. -/
def nullRow : Valuation Kleene where
  comparison c := if c.operator = .is then .true else .unknown
  computed _ := .unknown
  raw _ := .unknown
  comparison_congr {a b} h := by
    change (a.path == b.path && a.operator == b.operator && a.operand == b.operand &&
      a.type == b.type && a.negated == b.negated) = true at h
    simp only [Bool.and_eq_true, beq_iff_eq] at h
    rw [h.1.1.1.2]

theorem compile_nameless : compile people "Person" nameless =
    .ok (.logical .or [.not named, named, keyless]) := by
  simp only [nameless, compile, compileValue, compileItems, compileFields]
  rfl

theorem nameless_reading : compile people "Person" nameless =
      .ok (.logical .or [.not named, named, keyless]) ∧
    ∃ m, people.model "Person" = .ok m ∧ ∀ x, Says nullRow people (.root m) nameless x ↔
      x = Filter.eval nullRow (.logical .or [.not named, named, keyless]) :=
  ⟨compile_nameless, (compile_reading nullRow compile_nameless).1⟩

end RelQuery.Filter

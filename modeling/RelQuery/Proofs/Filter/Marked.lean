import RelQuery.Proofs.Filter.Descent
import RelQuery.Proofs.Filter.Local

/-!
# Marks of negation

At an attribute every comparison takes the mark of its scope, and the mark has no part in how the
filter is put together. So a document compiles there to the same tree under either mark.
-/

namespace RelQuery.Filter

mutual

/-- The filter with one mark of negation on every comparison. -/
def marked (b : Bool) : Filter → Filter
  | .comparison c => .comparison { c with negated := b }
  | .computed c => .computed { c with negated := b }
  | .raw sql => .raw sql
  | .logical k fs => .logical k (markedAll b fs)
  | .not f => .not (marked b f)

def markedAll (b : Bool) : List Filter → List Filter
  | [] => []
  | f :: fs => marked b f :: markedAll b fs

end

variable {b c : Bool} {f g : Filter} {fs gs : List Filter} {k : Connective} {s : Schema}
  {scope : Scope} {key : String} {value : Document} {op : Operator}

@[simp] theorem markedAll_eq_map : markedAll b fs = fs.map (marked b) := by
  induction fs with
  | nil => rfl
  | cons f fs ih => rw [markedAll, ih, List.map_cons]

/-! ## Combinations -/

theorem sameAll_map (h : ∀ f ∈ fs, ∀ g, same (marked b f) (marked b g) =
    same (marked c f) (marked c g)) :
    sameAll (fs.map (marked b)) (gs.map (marked b)) =
      sameAll (fs.map (marked c)) (gs.map (marked c)) := by
  induction fs generalizing gs with
  | nil => cases gs <;> rfl
  | cons f fs ih =>
    rw [List.forall_mem_cons] at h
    cases gs with
    | nil => rfl
    | cons g gs => simp only [List.map_cons, sameAll, h.1, ih h.2]

/-- Whether two filters are equal does not depend on the mark they share. -/
theorem same_marked : same (marked b f) (marked b g) = same (marked c f) (marked c g) := by
  induction f generalizing g with
  | comparison x =>
    cases g with
    | comparison y =>
      change (x.path == y.path && x.operator == y.operator && x.operand == y.operand &&
          x.type == y.type && b == b) =
        (x.path == y.path && x.operator == y.operator && x.operand == y.operand &&
          x.type == y.type && c == c)
      rw [beq_self_eq_true, beq_self_eq_true]
    | _ => rfl
  | computed x =>
    cases g with
    | computed y =>
      simp only [marked, same, Bool.beq_eq_decide_eq, ComputedComparison.mk.injEq, and_true]
    | _ => rfl
  | raw sql => cases g <;> rfl
  | logical k fs ih =>
    cases g with
    | logical l gs =>
      simp only [marked, markedAll_eq_map, same, sameAll_map fun f hf g => ih f hf (g := g)]
    | _ => rfl
  | not f ih =>
    cases g with
    | not g => exact ih
    | _ => rfl

/-- The mark `b` is on every comparison already. -/
def IsMarked (b : Bool) (f : Filter) : Prop := marked b f = f

theorem IsMarked.same (hf : f.IsMarked c) (hg : g.IsMarked c) :
    same (marked b f) (marked b g) = same f g := by
  rw [same_marked (c := c), hf, hg]

theorem contains_marked (hf : f.IsMarked c) (hfs : ∀ g ∈ fs, g.IsMarked c) :
    (fs.map (marked b)).contains (marked b f) = fs.contains f := by
  rw [Bool.eq_iff_iff, List.contains_map, List.any_eq_true, List.contains_iff_exists_mem_beq]
  exact exists_congr fun g => and_congr_right fun hg =>
    Bool.eq_iff_iff.mp (hf.same (hfs g hg))

theorem append_marked (hfs : ∀ f ∈ fs, f.IsMarked c) (hgs : ∀ g ∈ gs, g.IsMarked c) :
    append (fs.map (marked b)) (gs.map (marked b)) = (append fs gs).map (marked b) := by
  unfold append
  induction gs generalizing fs with
  | nil => rfl
  | cons g gs ih =>
    rw [List.forall_mem_cons] at hgs
    rw [List.map_cons, List.foldl_cons, List.foldl_cons, contains_marked hgs.1 hfs]
    by_cases h : fs.contains g = true
    · simp only [h, if_true]
      exact ih hfs hgs.2
    · simp only [h, Bool.false_eq_true, if_false]
      rw [← ih ?_ hgs.2, List.map_append, List.map_singleton]
      exact List.forall_mem_append.mpr ⟨hfs, List.forall_mem_singleton.mpr hgs.1⟩

theorem parts_marked : parts k (marked b f) = (parts k f).map (marked b) := by
  cases f with
  | logical l fs => by_cases h : l = k <;> simp [marked, parts, h]
  | _ => rfl

theorem IsMarked.parts (h : f.IsMarked c) (hg : g ∈ parts k f) : g.IsMarked c := by
  unfold Filter.parts at hg
  split at hg
  · rename_i l fs
    split at hg
    · rw [IsMarked, marked, markedAll_eq_map] at h
      have hfs : fs.map (marked c) = fs.map id := by rw [(logical.inj h).2, List.map_id]
      exact List.map_inj_left.mp hfs g hg
    · exact List.mem_singleton.mp hg ▸ h
  · exact List.mem_singleton.mp hg ▸ h

/-- A combination of operands with another mark is the combination with that mark. -/
theorem combine_marked (h : ∀ f ∈ fs, f.IsMarked c) :
    combine k (fs.map (marked b)) = marked b (combine k fs) := by
  have hparts : (fs.map (marked b)).flatMap (parts k) =
      (fs.flatMap (parts k)).map (marked b) := by
    rw [List.flatMap_map, List.map_flatMap]
    exact List.flatMap_congr fun f _ => parts_marked
  have hmarked : ∀ g ∈ fs.flatMap (parts k), g.IsMarked c := fun g hg => by
    obtain ⟨f, hf, hg⟩ := List.mem_flatMap.mp hg
    exact (h f hf).parts hg
  have hdistinct : distinct ((fs.map (marked b)).flatMap (parts k)) =
      (distinct (fs.flatMap (parts k))).map (marked b) := by
    rw [hparts]
    have hnil : ∀ f ∈ ([] : List Filter), f.IsMarked c := nofun
    exact append_marked hnil hmarked
  unfold combine
  rw [hdistinct]
  generalize distinct (fs.flatMap (parts k)) = gs
  match gs with
  | [g] => rfl
  | [] => rfl
  | g :: g' :: gs => simp [marked]

/-! ## Compiling at an attribute -/

/-- The scope with another mark. -/
def Scope.marked (b : Bool) (scope : Scope) : Scope := { scope with negated := b }

theorem leaf_marked : leaf s (scope.marked b) op value = marked b <$> leaf s scope op value := by
  unfold leaf Scope.marked
  cases scope.attr with
  | none => rfl
  | some a =>
    dsimp only
    cases Operand.checkShape (Operand.testForNull op value) value a.name with
    | error e => rfl
    | ok _ =>
      simp only [ok_bind]
      cases a.computed with
      | some c =>
        dsimp only
        cases Operand.literal a.type (Operand.testForNull op value) value a.name <;> rfl
      | none =>
        dsimp only
        split
        · rfl
        · cases Operand.ofValue a.type s.options.dialect value a.name <;> rfl

/-- The mark commutes with a combination of what all has one mark. -/
theorem map_combine_marked {xs : Except PlanError (List Filter)}
    (h : xs = List.map (marked c) <$> xs) :
    combine k <$> List.map (marked b) <$> xs = marked b <$> combine k <$> xs := by
  cases xs with
  | error e => rfl
  | ok fs =>
    have hfs : fs.map (marked c) = fs.map id := by rw [List.map_id, ← Except.ok.inj h]
    exact congrArg Except.ok (combine_marked (List.map_inj_left.mp hfs))

/-- The role with another mark on the scope that it leads to. -/
def Role.marked (b : Bool) : Role → Role
  | .within inner => .within (inner.marked b)
  | r => r

theorem map_operatorRole (name : String) :
    Role.marked b <$> operatorRole name = operatorRole name := by
  unfold operatorRole
  split
  · rfl
  · split
    · rfl
    · split
      · rfl
      · split <;> rfl

theorem role_marked (ha : scope.attr.isSome = true) :
    role s (scope.marked b) key value = Role.marked b <$> role s scope key value := by
  unfold role
  cases operatorName? key with
  | some name => exact (map_operatorRole name).symm
  | none =>
    have hdoc : (scope.marked b).inDocument = scope.inDocument := rfl
    have hattr : (scope.marked b).attr.isSome = true := ha
    dsimp only
    rw [hdoc, if_pos ha, if_pos hattr]
    split
    · rfl
    · split <;> rfl

/-- Documents that compile at an attribute to the same tree under either mark, as a whole, item by
item and entry by entry. -/
structure Markable (s : Schema) (value : Document) : Prop where
  whole : ∀ {scope : Scope} b, scope.attr.isSome = true →
    compileValue s (scope.marked b) value = marked b <$> compileValue s scope value
  items : ∀ {scope : Scope} {items} b, value = .arr items → scope.attr.isSome = true →
    compileItems s (scope.marked b) items = List.map (marked b) <$> compileItems s scope items
  entries : ∀ {scope : Scope} {fields} b, value = .obj fields → scope.attr.isSome = true →
    compileFields s (scope.marked b) fields = List.map (marked b) <$> compileFields s scope fields

namespace Markable

variable {items : List Document} {fields : List (String × Document)}

theorem compileItems (h : ∀ d ∈ items, Markable s d) (b : Bool)
    (ha : scope.attr.isSome = true) :
    compileItems s (scope.marked b) items = List.map (marked b) <$> compileItems s scope items := by
  induction items with
  | nil => rfl
  | cons d items ih =>
    rw [List.forall_mem_cons] at h
    rw [Filter.compileItems, Filter.compileItems, h.1.whole b ha, ih h.2]
    cases compileValue s scope d with
    | error e => rfl
    | ok f => cases Filter.compileItems s scope items <;> rfl

/-- A document that holds no filters at an attribute. -/
theorem of_leaf (hi : ∀ items, value ≠ .arr items) (he : ∀ fields, value ≠ .obj fields) :
    Markable s value where
  whole {scope} b ha := by
    have hne : scope.attr.isNone = false := by simpa using ha
    have hne' : (scope.marked b).attr.isNone = false := hne
    cases value with
    | arr items => exact (hi items rfl).elim
    | obj fields => exact (he fields rfl).elim
    | null => exact leaf_marked
    | _ => simp only [compileValue, hne, hne', Bool.false_eq_true, if_false, leaf_marked]
  items _ heq := (hi _ heq).elim
  entries _ heq := (he _ heq).elim

theorem arr (h : ∀ d ∈ items, Markable s d) : Markable s (.arr items) where
  whole {scope} b ha := by
    have hne : scope.attr.isNone = false := by simpa using ha
    have hne' : (scope.marked b).attr.isNone = false := hne
    simp only [compileValue, hne, hne', Bool.false_eq_true, if_false, leaf_marked]
  items b heq ha := by
    cases heq
    exact compileItems h b ha
  entries _ heq := nomatch heq

theorem compileEntry (h : Markable s value) (b : Bool) (ha : scope.attr.isSome = true) :
    compileEntry s (scope.marked b) key value = marked b <$> compileEntry s scope key value := by
  have hself : scope.marked scope.negated = scope := rfl
  unfold Filter.compileEntry
  rw [role_marked ha]
  cases hr : role s scope key value with
  | error e => rfl
  | ok r =>
    simp only [map_ok, ok_bind]
    cases r with
    | within inner => exact h.whole b (role_within_attribute hr ha).1
    | expression =>
      simp only [Role.marked]
      cases Expression.lower s.options.dialect value <;> rfl
    | operator op => exact leaf_marked
    | connective k =>
      cases value with
      | arr items =>
        simp only [Role.marked]
        rw [h.items b rfl ha]
        exact map_combine_marked (h.items scope.negated rfl ha)
      | obj fields =>
        simp only [Role.marked]
        rw [h.entries b rfl ha]
        exact map_combine_marked (h.entries scope.negated rfl ha)
      | _ => rfl
    | negation =>
      have hholds : holdsFilters (scope.marked b) value = holdsFilters scope value := by
        cases value <;> rfl
      simp only [Role.marked, hholds]
      split
      · rw [h.whole b ha]
        cases compileValue s scope value <;> rfl
      · exact leaf_marked

theorem compileFields (h : ∀ e ∈ fields, Markable s e.2) (b : Bool)
    (ha : scope.attr.isSome = true) :
    compileFields s (scope.marked b) fields =
      List.map (marked b) <$> compileFields s scope fields := by
  induction fields with
  | nil => simp [Filter.compileFields]
  | cons e fields ih =>
    rw [List.forall_mem_cons] at h
    rw [compileFields_cons, compileFields_cons, h.1.compileEntry b ha, ih h.2]
    cases Filter.compileEntry s scope e.1 e.2 with
    | error e => rfl
    | ok f => cases Filter.compileFields s scope fields <;> rfl

theorem obj (h : ∀ e ∈ fields, Markable s e.2) : Markable s (.obj fields) where
  whole {scope} b ha := by
    rw [compileValue, compileValue, compileFields h b ha]
    exact map_combine_marked (compileFields h scope.negated ha)
  items _ heq := nomatch heq
  entries b heq ha := by
    cases heq
    exact compileFields h b ha

end Markable

theorem markable (s : Schema) (value : Document) : Markable s value := by
  induction value with
  | null => exact .of_leaf nofun nofun
  | bool b => exact .of_leaf nofun nofun
  | num n => exact .of_leaf nofun nofun
  | str t => exact .of_leaf nofun nofun
  | arr items ih => exact .arr ih
  | obj fields ih => exact .obj ih

/-- At an attribute a document compiles under another mark to the same tree with that mark. -/
theorem compileValue_marked (ha : scope.attr.isSome = true) :
    compileValue s (scope.marked b) value = marked b <$> compileValue s scope value :=
  (markable s value).whole b ha

end RelQuery.Filter

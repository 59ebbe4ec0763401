import RelQuery.Proofs.Filter.Source
import RelQuery.Proofs.Statement.Tables
import RelQuery.Statement.Batch

/-!
# Conditions in scope

A condition is in the scope of some tables if each of its atoms names only those. The condition of a
join looks back if it is in the scope of the tables that the join introduces and of those before it.
-/

namespace RelQuery

/-! ## Atoms in scope -/

namespace Condition

/-- What an atom is that names only these tables: a comparison with a column of one of them, a
comparison with a computed attribute whose columns stand behind one of them, or an expression of a
request, which names no table. -/
inductive AtomIn (s : Schema) (tables : List String) : Sql → Prop
  | column {c : Comparison} {column : ColumnRef} {sql : Sql} : column.table ∈ tables →
      c.sql column = .ok sql → AtomIn s tables sql
  | computed {m : Model} {a : Attribute} {e : Computed} {table literal : String} {op : Operator}
      {negated : Bool} : m ∈ s.models → a ∈ m.attributes → a.computed = some e → table ∈ tables →
      AtomIn s tables [.text (Computed.condition m table e.expression op literal negated)]
  | expression {value : Document} {sql : String} :
      Expression.lower s.options.dialect value = .ok sql → AtomIn s tables [.text sql]

/-- The condition names only these tables. -/
def In (s : Schema) (tables : List String) (c : Condition) : Prop :=
  ∀ a ∈ c.atoms, AtomIn s tables a

variable {s : Schema} {tables tables' : List String} {a : Sql} {c : Condition}

theorem AtomIn.mono (h : AtomIn s tables a) (hsub : tables ⊆ tables') : AtomIn s tables' a := by
  cases h with
  | column ht hsql => exact .column (hsub ht) hsql
  | computed hm ha he ht => exact .computed hm ha he (hsub ht)
  | expression h => exact .expression h

theorem In.mono (h : c.In s tables) (hsub : tables ⊆ tables') : c.In s tables' :=
  fun a ha => (h a ha).mono hsub

theorem AtomIn.tables_subset (h : AtomIn s tables a) : Sql.tables a ⊆ tables := by
  cases h with
  | column ht hsql =>
    exact List.Subset.trans (Comparison.tables_sql hsql) (by simpa using ht)
  | computed => simp
  | expression => simp

theorem In.tables_subset (h : c.In s tables) : Sql.tables c.sql ⊆ tables := by
  rw [Sql.tables, filterMap_sql]
  intro t ht
  obtain ⟨a, ha, ht⟩ := List.mem_flatMap.mp ht
  exact (h a ha).tables_subset ht

end Condition

/-- The condition of a filter is in the scope of the tables that the filter reads. -/
theorem Filter.Reads.condition {s : Schema} {m : Model} {table : String} {f : Filter}
    {P : List String → Prop} {tables : List String} {c : Condition} (hf : f.Reads s m table P)
    (hm : m ∈ s.models) (hP : ∀ hops, P hops → joinName table hops ∈ tables)
    (h : f.condition s m table = .ok c) : c.In s tables := by
  intro a ha
  obtain ⟨l, hl, hatom⟩ := atom_of_condition h ha
  cases hf l hl with
  | comparison hh =>
    cases hatom with
    | comparison hcolumn hsql =>
      obtain ⟨t, -, hcolumn⟩ := bind_eq_ok.mp hcolumn
      cases hcolumn
      exact .column (hP _ hh) hsql
  | computed hh ht hattr he =>
    cases hatom
    exact .computed (Schema.mem_of_modelAt hm ht) hattr he (hP _ hh)
  | expression h =>
    cases hatom
    exact .expression h

/-! ## Joins -/

namespace Join

/-- The tables that a join introduces: its own, and its link table. -/
def names (j : Join) : List String := j.name :: (j.link.map fun link => link.2.1).toList

/-- All columns that the text of a join names, in its ON condition as in that of its link table, are
of the tables known before it or introduced by it. -/
structure LooksBack (s : Schema) (known : List String) (j : Join) : Prop where
  tables : Sql.tables j.sql ⊆ known ++ j.names
  filter : ∀ c, j.filter = some c → c.In s (known ++ j.names)

/-- Each of several joins looks back to the tables known before all of them, and to those that the
joins before it introduce. -/
def AllLookBack (s : Schema) : List String → List Join → Prop
  | _, [] => True
  | known, j :: js => j.LooksBack s known ∧ AllLookBack s (known ++ j.names) js

variable {s : Schema} {known known' : List String} {j : Join} {js js' : List Join}
  {assoc : Association} {parent t : Model} {table : String} {required : Bool}
  {condition : Option Condition}

theorem LooksBack.mono (h : j.LooksBack s known) (hsub : known ⊆ known') :
    j.LooksBack s known' := by
  have hsub : known ++ j.names ⊆ known' ++ j.names :=
    List.append_subset.mpr ⟨List.subset_append_of_subset_left _ hsub, List.subset_append_right _ _⟩
  exact ⟨List.Subset.trans h.tables hsub, fun c hc => (h.filter c hc).mono hsub⟩

theorem AllLookBack.mono (h : AllLookBack s known js) (hsub : known ⊆ known') :
    AllLookBack s known' js := by
  induction js generalizing known known' with
  | nil => trivial
  | cons j js ih =>
    refine ⟨h.1.mono hsub, ih h.2 (List.append_subset.mpr ⟨?_, List.subset_append_right _ _⟩)⟩
    exact List.subset_append_of_subset_left _ hsub

theorem AllLookBack.append (h : AllLookBack s known js) (h' : AllLookBack s known js') :
    AllLookBack s known (js ++ js') := by
  induction js generalizing known with
  | nil => exact h'
  | cons j js ih => exact ⟨h.1, ih h.2 (h'.mono (List.subset_append_left _ _))⟩

/-! ### The joins of an association -/

/-- A join names the columns by which it is reached, and the tables of its condition. -/
theorem tables_sql_subset {tables : List String} (hleft : j.left.table ∈ tables)
    (hright : j.right.table ∈ tables)
    (hlink : ∀ link ∈ j.link, link.2.2.1.table ∈ tables ∧ link.2.2.2.table ∈ tables)
    (hfilter : ∀ c, j.filter = some c → Sql.tables c.sql ⊆ tables) :
    Sql.tables j.sql ⊆ tables := by
  have hon : Sql.tables j.on ⊆ tables := by
    unfold Join.on
    cases hf : j.filter with
    | none => simp [hleft, hright]
    | some c => simpa [hleft, hright] using hfilter c hf
  have hsource : Sql.tables j.source ⊆ tables := by
    unfold Join.source
    cases hl : j.link with
    | none => simp
    | some link =>
      obtain ⟨hl, hr⟩ := hlink link hl
      simp [hl, hr]
  simpa [Join.sql] using ⟨hsource, hon⟩

theorem filter_joinOf :
    (Include.joinOf assoc parent t table required condition).filter = condition := by
  unfold Include.joinOf
  dsimp only
  split <;> rfl

theorem mem_names_joinOf : joinName table [assoc.name] ∈
    (Include.joinOf assoc parent t table required condition).names := by
  rw [← Include.name_joinOf]
  exact List.mem_cons_self

/-- The join of an association names the parent and the tables that it introduces. -/
theorem looksBack_joinOf (ht : table ∈ known)
    (hc : ∀ c, condition = some c → c.In s (known ++
      (Include.joinOf assoc parent t table required condition).names)) :
    (Include.joinOf assoc parent t table required condition).LooksBack s known := by
  have hfilter : ∀ c, (Include.joinOf assoc parent t table required condition).filter = some c →
      c.In s (known ++ (Include.joinOf assoc parent t table required condition).names) := by
    rwa [filter_joinOf]
  refine ⟨tables_sql_subset ?_ ?_ ?_ fun c h => (hfilter c h).tables_subset, hfilter⟩
  all_goals
    unfold Include.joinOf names
    dsimp only
    split <;> simp [ht]

end Join

end RelQuery

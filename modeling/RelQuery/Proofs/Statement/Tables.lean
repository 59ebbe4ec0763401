import RelQuery.Proofs.Filter.Leaves
import RelQuery.Proofs.Statement.Columns

/-!
# The tables that a condition names

A condition names tables only in its atoms, and its atoms are those of the leaves of a filter: a
comparison names the table of its column, every other atom is text.
-/

namespace RelQuery

/-! ## Tables of SQL -/

/-- The table that a piece names. -/
def Piece.table? : Piece → Option String
  | .column table _ => some table
  | _ => none

namespace Piece

variable {t table column : String} {v : Document} {cast : Option String} {c : ColumnRef}

instance : SkipsText table? := ⟨fun _ => rfl, fun _ => rfl⟩

@[simp] theorem table?_text : (text t).table? = none := rfl

@[simp] theorem table?_name : (name t).table? = none := rfl

@[simp] theorem table?_value : (value v cast).table? = none := rfl

@[simp] theorem table?_silent : (silent v).table? = none := rfl

@[simp] theorem table?_column : (Piece.column table column).table? = some table := rfl

@[simp] theorem table?_piece : c.piece.table? = some c.table := rfl

theorem table?_eq {p : Piece} : p.table? = p.column?.map (·.table) := by
  cases p <;> rfl

end Piece

namespace Sql

/-- The tables that the columns of an SQL text are of. -/
abbrev tables (ps : Sql) : List String := ps.filterMap Piece.table?

theorem tables_eq : tables = fun ps => (columns ps).map (·.table) := by
  funext ps
  rw [tables, columns, List.map_filterMap]
  exact List.filterMap_congr fun _ _ => Piece.table?_eq

end Sql

/-- A comparison names only the table of its column. -/
theorem Comparison.tables_sql {c : Comparison} {column : ColumnRef} {sql : Sql}
    (h : c.sql column = .ok sql) : Sql.tables sql ⊆ [column.table] := by
  rw [Sql.tables_eq]
  exact List.map_subset _ (columns_sql h)

/-! ## Atoms of filters -/

namespace Filter

/-- What a leaf is written as, where the statement calls `m` by the name `table`. -/
inductive Atom (s : Schema) (m : Model) (table : String) : Filter → Sql → Prop
  | comparison {c : Comparison} {column : ColumnRef} {sql : Sql} :
      c.column s m table = .ok column → c.sql column = .ok sql → Atom s m table (.comparison c) sql
  | computed {c : ComputedComparison} {t : Model} : s.modelAt m c.path.hops = .ok t →
      Atom s m table (.computed c) [.text (Computed.condition t (joinName table c.path.hops)
        c.expression c.operator c.literal c.negated)]
  | raw {sql : String} : Atom s m table (.raw sql) [.text sql]

variable {s : Schema} {m : Model} {table : String} {f g l : Filter} {fs : List Filter}
  {c : Condition} {cs : List Condition} {a : Sql}

theorem atoms_of_conditions
    (h : List.Forall₂ (fun f c => List.Forall₂ (Atom s m table) f.leaves c.atoms) fs cs) :
    List.Forall₂ (Atom s m table) (leavesAll fs) (Condition.atomsAll cs) := by
  induction h with
  | nil => exact .nil
  | cons h _ ih => exact List.rel_append h ih

/-- The atoms of the condition of a filter are those of its leaves, in order. -/
theorem atoms_of_condition (h : f.condition s m table = .ok c) :
    List.Forall₂ (Atom s m table) f.leaves c.atoms := by
  induction f generalizing c with
  | comparison cmp =>
    obtain ⟨column, hcolumn, h⟩ := bind_eq_ok.mp h
    obtain ⟨sql, hsql, h⟩ := bind_eq_ok.mp h
    cases h
    rw [Condition.atoms_negateIf]
    exact .cons (.comparison hcolumn hsql) .nil
  | computed cmp =>
    obtain ⟨t, ht, h⟩ := bind_eq_ok.mp h
    cases h
    exact .cons (.computed ht) .nil
  | raw sql =>
    cases h
    exact .cons .raw .nil
  | logical k fs ih =>
    obtain ⟨cs, hcs, h⟩ := bind_eq_ok.mp h
    cases h
    rw [conditions_eq_mapM] at hcs
    exact atoms_of_conditions
      (((List.forall₂_and_left fs cs).mpr ⟨@ih, forall₂_of_mapM hcs⟩).imp fun _ _ h => h.1 h.2)
  | not f ih =>
    obtain ⟨c, hc, h⟩ := bind_eq_ok.mp h
    cases h
    have hatoms := ih hc
    exact hatoms

/-- Every atom of the condition of a filter is that of a leaf. -/
theorem atom_of_condition (h : f.condition s m table = .ok c) (ha : a ∈ c.atoms) :
    ∃ l ∈ f.leaves, l.Atom s m table a :=
  exists_of_forall₂ (atoms_of_condition h) ha

/-- Lowering a filter does not change what it is written as. -/
theorem atom_of_lower (h : f.lower s m table = .ok g) (hl : l ∈ g.leaves)
    (ha : l.Atom s m table a) : ∃ k ∈ f.leaves, k.Atom s m table a := by
  obtain ⟨k, hk, h⟩ := mem_leaves_lower h hl
  refine ⟨k, hk, ?_⟩
  have hleaf := isLeaf_of_mem hk
  cases k with
  | comparison c =>
    cases h
    exact ha
  | raw sql =>
    cases h
    exact ha
  | computed c =>
    obtain ⟨t, ht, h⟩ := bind_eq_ok.mp h
    cases h
    cases ha
    exact .computed ht
  | _ => exact hleaf.elim

end Filter

end RelQuery

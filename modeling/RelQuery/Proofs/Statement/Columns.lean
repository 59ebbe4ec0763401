import RelQuery.Proofs.Except
import RelQuery.Statement.Batch

/-!
# The columns of SQL

The columns that a statement names, with the tables it names them by: those of its select list, of
its joins, of the atoms of its conditions, and of its groups and its order. Text is not looked into.
What a comparison is written as goes by its operator and its operand, in one of eight forms.
-/

namespace RelQuery

/-! ## What pieces hold -/

/-- Pieces that are fixed text or a name hold nothing that is collected. -/
class Piece.SkipsText {β : Type} (f : Piece → Option β) : Prop where
  text (t : String) : f (.text t) = none
  name (t : String) : f (.name t) = none

namespace Sql

variable {β : Type} {f : Piece → Option β} {ps : Sql} {pss : List Sql} {p : Piece}
  {separator name : String}

@[simp] theorem filterMap_cons :
    List.filterMap f (p :: ps) = (f p).toList ++ List.filterMap f ps := by
  cases h : f p <;> simp [h]

variable [Piece.SkipsText f]

@[simp] theorem filterMap_join :
    List.filterMap f (join separator pss) = pss.flatMap (List.filterMap f) := by
  induction pss with
  | nil => rfl
  | cons ps pss ih =>
    cases pss with
    | nil => simp [join]
    | cons qs pss => simp [join, Piece.SkipsText.text, ih]

@[simp] theorem filterMap_parenthesized :
    List.filterMap f (parenthesized ps) = List.filterMap f ps := by
  simp [parenthesized, Piece.SkipsText.text]

@[simp] theorem filterMap_named : List.filterMap f (named ps name) = List.filterMap f ps := by
  simp [named, Piece.SkipsText.text, Piece.SkipsText.name]

end Sql

namespace Select

variable {β : Type} {f : Piece → Option β} [Piece.SkipsText f] {keyword : String}
  {members : List Sql} {n : Option Nat}

@[simp] theorem filterMap_clause :
    List.filterMap f (clause keyword members) = members.flatMap (List.filterMap f) := by
  unfold clause
  split
  · rename_i h
    rw [List.isEmpty_iff.mp h]
    rfl
  · simp [Piece.SkipsText.text]

@[simp] theorem filterMap_number : List.filterMap f (number keyword n) = [] := by
  cases n <;> simp [number, Piece.SkipsText.text]

end Select

/-! ## Columns -/

/-- The column that a piece names. -/
def Piece.column? : Piece → Option ColumnRef
  | .column t c => some ⟨t, c⟩
  | _ => none

namespace Piece

variable {t table column : String} {v : Document} {cast : Option String} {c : ColumnRef}

instance : SkipsText column? := ⟨fun _ => rfl, fun _ => rfl⟩

@[simp] theorem column?_text : (text t).column? = none := rfl

@[simp] theorem column?_name : (name t).column? = none := rfl

@[simp] theorem column?_value : (value v cast).column? = none := rfl

@[simp] theorem column?_silent : (silent v).column? = none := rfl

@[simp] theorem column?_column : (Piece.column table column).column? = some ⟨table, column⟩ := rfl

@[simp] theorem column?_piece : c.piece.column? = some c := rfl

end Piece

/-- The columns that an SQL text names. -/
abbrev Sql.columns (ps : Sql) : List ColumnRef := ps.filterMap Piece.column?

/-! ## Conditions -/

namespace Condition

mutual

/-- The conditions that are not taken apart, in order. -/
def atoms : Condition → List Sql
  | .atom sql => [sql]
  | .negation c => atoms c
  | .logical _ cs => atomsAll cs

def atomsAll : List Condition → List Sql
  | [] => []
  | c :: cs => atoms c ++ atomsAll cs

end

variable {c : Condition} {cs : List Condition} {β : Type} {f : Piece → Option β}
  [Piece.SkipsText f]

theorem filterMap_operandsSql
    (H : ∀ c ∈ cs, List.filterMap f c.sql = c.atoms.flatMap (List.filterMap f)) :
    (operandsSql cs).flatMap (List.filterMap f) = (atomsAll cs).flatMap (List.filterMap f) := by
  induction cs with
  | nil => rfl
  | cons c cs ih =>
    rw [List.forall_mem_cons] at H
    simp [operandsSql, atomsAll, H.1, ih H.2]

/-- What is collected from a condition is what its atoms hold. -/
theorem filterMap_sql : List.filterMap f c.sql = c.atoms.flatMap (List.filterMap f) := by
  induction c with
  | atom ps => simp [Condition.sql, atoms]
  | negation c ih => simp [Condition.sql, atoms, Piece.SkipsText.text, ih]
  | logical k cs ih =>
    rw [Condition.sql]
    split
    · rename_i h
      cases List.isEmpty_iff.mp h
      simp [atoms, atomsAll, Piece.SkipsText.text]
    · rw [Sql.filterMap_join, filterMap_operandsSql ih, atoms]

@[simp] theorem atoms_negateIf {negated : Bool} : (negateIf negated c).atoms = c.atoms := by
  cases negated <;> rfl

end Condition

namespace Comparison

/-- What the values of a comparison are cast to. -/
def cast? (c : Comparison) : Option String :=
  if !c.path.documentPath.isEmpty || c.operator.isPattern then none
  else c.type.bind (·.placeholderCast?)

/-- A value of the operand, as a parameter. -/
def bound (c : Comparison) (v : Document) : Piece :=
  parameter (!c.path.documentPath.isEmpty) c.cast? v

/-- The comparison with a right side. -/
def compared (c : Comparison) (column : ColumnRef) (right : Sql) : Sql :=
  c.subject column ++ .text (" " ++ c.operator.sql ++ " ") :: right

/-- How a comparison is written, by its operator and its operand. -/
inductive Written (c : Comparison) (column : ColumnRef) : Sql → Prop
  | cast {literal type : String} : c.operand = .cast literal type → Written c column
      (c.compared column [.text "CAST(", .value (.str literal) none, .text (" AS " ++ type ++ ")")])
  | null : c.operator = .is ∨ c.operator = .not → c.operand = .plain .null →
      Written c column (c.compared column [.text "NULL"])
  | truth {b : Bool} : c.operator = .is ∨ c.operator = .not → c.operand = .plain (.bool b) →
      Written c column (c.compared column [.text (if b then "TRUE" else "FALSE")])
  | noValues {truth : String} :
      c.operator = .isIn ∧ truth = "FALSE" ∨ c.operator = .notIn ∧ truth = "TRUE" →
      c.operand = .plain (.arr []) → Written c column (c.emptyList truth)
  | range {low high : Document} : c.operator.isRange = true →
      c.operand = .plain (.arr [low, high]) →
      Written c column (c.compared column [c.bound low, .text " AND ", c.bound high])
  | list {items : List Document} : c.operator.takesList = true → c.operator.isRange = false →
      c.operand = .plain (.arr items) → items ≠ [] →
      Written c column (c.compared column
        (Sql.parenthesized (Sql.join ", " (items.map fun v => [c.bound v]))))
  | pattern {t : String} : c.operator.isPattern = true → c.operand = .plain (.str t) →
      Written c column (c.compared column [.value (.str (c.operator.pattern t)) none])
  | value {v : Document} : c.operand = .plain v →
      (c.operator = .is ∨ c.operator = .not → ∀ b, v ≠ .bool b) → (∀ items, v ≠ .arr items) →
      Written c column (c.compared column [c.bound v])

variable {c : Comparison} {column : ColumnRef} {sql : Sql}

theorem columns_subject : Sql.columns (c.subject column) = [column] := by
  unfold subject
  split
  · rfl
  · simp [List.flatMap_map]

theorem columns_emptyList {truth : String} : Sql.columns (c.emptyList truth) = [] := by
  simp [emptyList, Sql.columns]

@[simp] theorem column?_parameter {inside : Bool} {cast : Option String} {v : Document} :
    (parameter inside cast v).column? = none := by
  unfold parameter
  split <;> rfl

@[simp] theorem column?_bound {v : Document} : (c.bound v).column? = none := column?_parameter

/-- A comparison that can be written is written by its operator and its operand. -/
theorem written_of_sql (h : c.sql column = .ok sql) : c.Written column sql := by
  unfold Comparison.sql at h
  dsimp only at h
  split at h
  · cases h
    exact .cast ‹_›
  · rename_i v hv
    split at h
    case h_1 hop | h_2 hop =>
      cases h
      exact .null (by simp [hop]) hv
    case h_3 hop | h_4 hop =>
      cases h
      exact .truth (by simp [hop]) hv
    case h_5 hop =>
      cases h
      exact .noValues (.inl ⟨hop, rfl⟩) hv
    case h_6 hop =>
      cases h
      exact .noValues (.inr ⟨hop, rfl⟩) hv
    case h_7 items hin hnotIn =>
      split at h
      · rename_i hrange
        split at h
        · cases h
          exact .range hrange hv
        · cases h
      · rename_i hrange
        split at h
        · rename_i hlist
          cases h
          refine .list hlist (Bool.eq_false_iff.mpr hrange) hv ?_
          rintro rfl
          have hop : c.operator = .isIn ∨ c.operator = .notIn := by
            cases hk : c.operator <;> simp_all [Operator.takesList, Operator.isRange]
          exact hop.elim (hin · rfl) (hnotIn · rfl)
        · cases h
    case h_8 => cases h
    case h_9 =>
      split at h
      · rename_i hpattern
        cases h
        exact .pattern hpattern hv
      · cases h
        exact .value hv nofun nofun
    case h_10 harr _ _ _ _ his hnot _ _ =>
      cases h
      exact .value hv (fun hop b hb => hop.elim (his b · hb) (hnot b · hb)) harr

/-- A comparison is its subject, the operator and a right side without columns, or else it is
decided without any. -/
theorem sql_eq_ok (h : c.sql column = .ok sql) :
    (∃ right, Sql.columns right = [] ∧
      sql = c.subject column ++ .text (" " ++ c.operator.sql ++ " ") :: right) ∨
    ∃ truth, sql = c.emptyList truth := by
  cases written_of_sql h with
  | noValues => exact .inr ⟨_, rfl⟩
  | list => exact .inl ⟨_, by simp [List.flatMap_map], rfl⟩
  | cast | null | truth | range | pattern | value => exact .inl ⟨_, by simp, rfl⟩

/-- A comparison names only its column. -/
theorem columns_sql (h : c.sql column = .ok sql) : Sql.columns sql ⊆ [column] := by
  rcases sql_eq_ok h with ⟨right, hright, rfl⟩ | ⟨truth, rfl⟩
  · simp [columns_subject, hright]
  · simp [columns_emptyList]

end Comparison

/-! ## Statements -/

/-- The columns of a condition, if there is one. -/
def Condition.columns? (c? : Option Condition) : List ColumnRef :=
  c?.toList.flatMap fun c => Sql.columns c.sql

/-- The columns that match a link table, if there is one. -/
def linkColumns (link? : Option (String × String × ColumnRef × ColumnRef)) : List ColumnRef :=
  link?.toList.flatMap fun (_, _, left, right) => [left, right]

namespace Join

variable {j : Join}

theorem columns_source : Sql.columns j.source = linkColumns j.link := by
  unfold source
  split <;> simp [*, linkColumns]

theorem columns_on : Sql.columns j.on = [j.left, j.right] ++ Condition.columns? j.filter := by
  unfold on
  split <;> simp [*, Condition.columns?]

/-- A join names the columns by which it matches its link table and its parent, and those of its
condition. -/
theorem columns_sql : Sql.columns j.sql =
    linkColumns j.link ++ [j.left, j.right] ++ Condition.columns? j.filter := by
  simp [sql, columns_source, columns_on]

end Join

namespace Select

variable {q : Select}

theorem columns_sql : Sql.columns q.sql =
    q.columns.flatMap Sql.columns ++ q.joins.flatMap (fun j => Sql.columns j.sql) ++
      Condition.columns? q.condition ++ q.group ++ q.order.flatMap Sql.columns := by
  have hgroup : ((q.group.map fun c => [c.piece]) : List Sql).flatMap Sql.columns = q.group := by
    simp [List.flatMap_map]
  unfold sql
  cases hc : q.condition <;> simp [hgroup, Condition.columns?, List.filterMap_flatMap]

end Select

namespace Batch

variable {b : Batch}

theorem columns_source : Sql.columns b.source = linkColumns b.link := by
  unfold source
  split <;> simp [*, linkColumns]

theorem columns_condition : Sql.columns b.condition ⊆ [b.parent] ++ Condition.columns? b.filter := by
  have hcorrelation : Sql.columns b.correlation ⊆ [b.parent] := by
    unfold correlation
    split <;> simp [List.flatMap_map]
  unfold condition
  rw [Sql.columns, List.filterMap_append]
  refine List.append_subset.mpr ⟨List.subset_append_of_subset_left _ hcorrelation, ?_⟩
  cases b.filter <;> simp [Condition.columns?]

theorem columns_rows : Sql.columns b.rows = b.columns.flatMap Sql.columns ++ b.parent ::
    (if b.page.isSome then [b.parent, b.primaryKey] else []) ++ linkColumns b.link ++
      b.joins.flatMap (fun j => Sql.columns j.sql) ++ Sql.columns b.condition ++
        [b.parent, b.primaryKey] := by
  unfold rows
  split <;> simp [rowNumber, columns_source, List.filterMap_flatMap]

/-- The row numbers of a page are read by their name. -/
theorem columns_paged : Sql.columns b.sql = Sql.columns b.rows := by
  unfold sql
  split
  · rfl
  · rename_i first last _
    cases last <;> simp

theorem columns_sql : Sql.columns b.sql ⊆ b.columns.flatMap Sql.columns ++ linkColumns b.link ++
    b.joins.flatMap (fun j => Sql.columns j.sql) ++ [b.parent, b.primaryKey] ++
      Condition.columns? b.filter := by
  have hcondition := columns_condition (b := b)
  rw [columns_paged, columns_rows]
  intro ref href
  have hkeys : ref ∈ (if b.page.isSome then [b.parent, b.primaryKey] else []) →
      ref ∈ [b.parent, b.primaryKey] := by
    split
    · exact id
    · nofun
  grind

theorem forall_columns {P : ColumnRef → Prop}
    (hcolumns : ∀ ps ∈ b.columns, ∀ ref ∈ Sql.columns ps, P ref)
    (hlink : ∀ ref ∈ linkColumns b.link, P ref)
    (hjoins : ∀ j ∈ b.joins, ∀ ref ∈ Sql.columns j.sql, P ref)
    (hparent : P b.parent) (hprimaryKey : P b.primaryKey)
    (hfilter : ∀ ref ∈ Condition.columns? b.filter, P ref) :
    ∀ ref ∈ Sql.columns b.sql, P ref := by
  intro ref href
  have href := columns_sql href
  simp only [List.mem_append, List.mem_flatMap, List.mem_cons, List.not_mem_nil, or_false] at href
  obtain (((⟨ps, hps, href⟩ | href) | ⟨j, hj, href⟩) | rfl | rfl) | href := href
  · exact hcolumns ps hps ref href
  · exact hlink ref href
  · exact hjoins j hj ref href
  · exact hparent
  · exact hprimaryKey
  · exact hfilter ref href

end Batch

end RelQuery

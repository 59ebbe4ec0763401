import Mathlib.Data.Set.Defs
import RelQuery.Proofs.Document.Compact
import RelQuery.Query
import RelQuery.Statement.Batch

/-!
# What conditions mean

The contents of a database, and which rows the conditions that correlate rows hold of: a column is
equal to a value, is one of some values, or stands in a link table beside a key. The last condition
is text, and text says one thing only: names and literals can be read off it.
-/

namespace RelQuery

/-- The values of a row, by column. -/
abbrev Cells := String → Document

/-- A row for each name that a statement gives to a table. -/
abbrev Bindings := String → Cells

/-- The contents of the tables, and what SQL does with values. Nothing is equal to `NULL`. -/
structure Database where
  rows : String → List Cells
  equal : Document → Document → Prop
  cast : String → Document → Document
  equal_symm : ∀ {v w}, equal v w → equal w v
  not_equal_null : ∀ v, ¬equal v .null

/-- No rows at hand. -/
def Bindings.empty : Bindings := fun _ _ => .null

/-- The rows at hand with one more. -/
def Bindings.bind (rows : Bindings) (name : String) (r : Cells) : Bindings :=
  fun n => if n = name then r else rows n

namespace Bindings

variable {rows : Bindings} {name other : String} {r : Cells}

@[simp] theorem bind_self : rows.bind name r name = r := if_pos rfl

theorem bind_of_ne (h : other ≠ name) : rows.bind name r other = rows other := if_neg h

end Bindings

/-- The condition that a column has a value which a link table holds beside a key. -/
structure Membership where
  column : ColumnRef
  other : String
  table : String
  foreignKey : String
  literal : String

def Membership.text (m : Membership) : String :=
  columnText m.column.table m.column.column ++ " IN (SELECT " ++ Text.identifier m.other ++
    " FROM " ++ Text.identifier m.table ++ " WHERE " ++ Text.identifier m.foreignKey ++ " = " ++
    m.literal ++ ")"

namespace Database

variable (db : Database) (rows : Bindings)

/-- The value of an expression. -/
inductive Denotes : Sql → Document → Prop
  | column (t c : String) : Denotes [.column t c] (rows t c)
  | value (v : Document) : Denotes [.value v none] v
  | typed (v : Document) (type : String) : Denotes [.value v (some type)] (db.cast type v)
  | cast (v : Document) (type : String) :
    Denotes [.text "CAST(", .value v none, .text (" AS " ++ type ++ ")")] (db.cast type v)

/-- The conditions that correlate rows. -/
inductive Holds : Sql → Prop
  | equal {t c : String} {r : Sql} {v : Document} : Denotes db rows r v →
    db.equal (rows t c) v → Holds (.column t c :: .text " = " :: r)
  | among {t c : String} {vs : List Document} {type : Option String} {v w : Document} : v ∈ vs →
    Denotes db rows [.value v type] w → db.equal (rows t c) w →
    Holds (.column t c :: .text " IN " ::
      Sql.parenthesized (Sql.join ", " (vs.map fun v => [.value v type])))
  | member {m : Membership} {key : Document} {l : Cells} : Query.keyLiteral key = .ok m.literal →
    l ∈ db.rows m.table → db.equal (l m.foreignKey) key →
    db.equal (rows m.column.table m.column.column) (l m.other) → Holds [.text m.text]

end Database

/-! ## Quoted texts -/

namespace Text

variable {q : Char} {as bs cs ds : List Char}

/-- A doubled text ends at the first quote that no other quote follows. -/
theorem double_append_cons_inj (hcs : cs.head? ≠ some q) (hds : ds.head? ≠ some q)
    (h : double q as ++ q :: cs = double q bs ++ q :: ds) : as = bs ∧ cs = ds := by
  induction as generalizing bs with
  | nil =>
    cases bs with
    | nil => exact ⟨rfl, (List.cons.inj h).2⟩
    | cons b bs =>
      by_cases hb : b = q <;> simp [hb] at h
      · simp [h] at hcs
      · exact (hb h.1.symm).elim
  | cons a as ih =>
    cases bs with
    | nil =>
      by_cases ha : a = q <;> simp [ha] at h
      simp [← h] at hds
    | cons b bs =>
      have hrest : a = b ∧ double q as ++ q :: cs = double q bs ++ q :: ds := by
        by_cases ha : a = q <;> by_cases hb : b = q <;> simp [ha, hb] at h
        · exact ⟨ha.trans hb.symm, h⟩
        · exact (hb h.1.symm).elim
        · exact h
      obtain ⟨rfl, rfl⟩ := ih hrest.2
      exact ⟨congrArg (· :: as) hrest.1, rfl⟩

theorem quote_append_inj {s t : String} (hcs : cs.head? ≠ some q) (hds : ds.head? ≠ some q)
    (h : (quote q s).toList ++ cs = (quote q t).toList ++ ds) : s = t ∧ cs = ds := by
  simp only [quote, String.toList_ofList, List.cons_append, List.append_assoc,
    List.nil_append, List.cons.injEq, true_and] at h
  obtain ⟨hst, hrest⟩ := double_append_cons_inj hcs hds h
  exact ⟨String.toList_inj.mp hst, hrest⟩

/-- An identifier before a text that does not start with a quote can be read off. -/
theorem identifier_append_inj {s t text : String} {c : Char} (hc : text.toList.head? = some c)
    (hq : c ≠ '"')
    (h : (identifier s).toList ++ (text.toList ++ cs) =
      (identifier t).toList ++ (text.toList ++ ds)) : s = t ∧ cs = ds := by
  have hhead : ∀ rest : List Char, (text.toList ++ rest).head? ≠ some '"' := by
    intro rest
    rw [List.head?_append, hc]
    exact fun h => hq (Option.some.inj h)
  obtain ⟨hst, hrest⟩ := quote_append_inj (hhead cs) (hhead ds) h
  exact ⟨hst, List.append_cancel_left hrest⟩

theorem literal_injective {s t : String} (h : literal s = literal t) : s = t := by
  have hlists : (quote '\'' s).toList ++ [] = (quote '\'' t).toList ++ [] := by
    rw [List.append_nil, List.append_nil]
    exact congrArg String.toList h
  exact (quote_append_inj (by simp) (by simp) hlists).1

end Text

namespace Query

/-- A numeral is no quoted text. -/
theorem text_ne_literal {n : Number} {s : String} : n.text ≠ Text.literal s := by
  intro h
  have hquote : '\'' ∈ n.text.toList := by simp [h, Text.literal, Text.quote]
  have hpart := Number.isPart_text hquote
  exact absurd hpart (by decide)

/-- Only numbers and strings have a literal. -/
theorem num_or_str_of_keyLiteral {key : Document} {l : String} (h : keyLiteral key = .ok l) :
    (∃ n, key = .num n) ∨ ∃ t, key = .str t := by
  cases key with
  | num n => exact .inl ⟨n, rfl⟩
  | str t => exact .inr ⟨t, rfl⟩
  | _ => cases h

/-- A key is determined by its literal. -/
theorem keyLiteral_injective {key key' : Document} {l : String} (h : keyLiteral key = .ok l)
    (h' : keyLiteral key' = .ok l) : key = key' := by
  rcases num_or_str_of_keyLiteral h with ⟨n, rfl⟩ | ⟨t, rfl⟩ <;>
    rcases num_or_str_of_keyLiteral h' with ⟨n', rfl⟩ | ⟨t', rfl⟩
  · have heq : n.text = n'.text := Except.ok.inj (h.trans h'.symm)
    rw [Number.text_injective heq]
  · exact (text_ne_literal (Except.ok.inj (h.trans h'.symm))).elim
  · exact (text_ne_literal (Except.ok.inj (h'.trans h.symm))).elim
  · have heq : Text.literal t = Text.literal t' := Except.ok.inj (h.trans h'.symm)
    rw [Text.literal_injective heq]

end Query

theorem Membership.text_injective {m n : Membership} (h : m.text = n.text) : m = n := by
  obtain ⟨⟨t, c⟩, o, l, f, literal⟩ := m
  obtain ⟨⟨t', c'⟩, o', l', f', literal'⟩ := n
  have htable := congrArg String.toList h
  simp only [text, columnText, String.toList_append, List.append_assoc] at htable
  obtain ⟨rfl, hcolumn⟩ := Text.identifier_append_inj rfl (by decide) htable
  obtain ⟨rfl, hother⟩ := Text.identifier_append_inj rfl (by decide) hcolumn
  obtain ⟨rfl, hlink⟩ := Text.identifier_append_inj rfl (by decide) hother
  obtain ⟨rfl, hforeign⟩ := Text.identifier_append_inj rfl (by decide) hlink
  obtain ⟨rfl, hliteral⟩ := Text.identifier_append_inj rfl (by decide) hforeign
  rw [String.toList_inj.mp (List.append_cancel_right hliteral)]

/-! ## Lists of values -/

/-- The values between commas are determined by the list. -/
theorem Sql.join_values_inj {vs ws : List Document} {type type' : Option String}
    (h : join ", " (vs.map fun v => [.value v type]) =
      join ", " (ws.map fun w => [.value w type'])) :
    vs.map (fun v => Piece.value v type) = ws.map fun w => Piece.value w type' := by
  induction vs generalizing ws with
  | nil =>
    cases ws with
    | nil => rfl
    | cons w ws => cases ws <;> cases h
  | cons v vs ih =>
    cases ws with
    | nil => cases vs <;> cases h
    | cons w ws =>
      cases vs with
      | nil =>
        cases ws with
        | nil => exact h
        | cons => cases h
      | cons v' vs =>
        cases ws with
        | nil => cases h
        | cons w' ws =>
          obtain ⟨hvalue, hrest⟩ := List.cons.inj h
          exact List.cons_eq_cons.mpr ⟨hvalue, ih (List.cons.inj hrest).2⟩

/-! ## Conditions by what they hold of -/

namespace Database

variable {db : Database} {rows : Bindings} {t c type : String} {v w : Document} {r : Sql}

theorem denotes_column : db.Denotes rows [.column t c] w ↔ w = rows t c := by
  constructor
  · intro h
    cases h
    rfl
  · rintro rfl
    exact .column t c

theorem denotes_value : db.Denotes rows [.value v none] w ↔ w = v := by
  constructor
  · intro h
    cases h
    rfl
  · rintro rfl
    exact .value _

theorem denotes_typed : db.Denotes rows [.value v (some type)] w ↔ w = db.cast type v := by
  constructor
  · intro h
    cases h
    rfl
  · rintro rfl
    exact .typed v type

theorem denotes_cast : db.Denotes rows
    [.text "CAST(", .value v none, .text (" AS " ++ type ++ ")")] w ↔ w = db.cast type v := by
  constructor
  · generalize he : ([.text "CAST(", .value v none, .text (" AS " ++ type ++ ")")] : Sql) = e
    intro h
    cases h with
    | cast v' type' =>
      simp only [List.cons.injEq, Piece.value.injEq, Piece.text.injEq] at he
      obtain ⟨-, ⟨rfl, -⟩, htype, -⟩ := he
      have htype := congrArg String.toList htype
      simp only [String.toList_append, List.append_assoc] at htype
      have htype := List.append_cancel_right (List.append_cancel_left htype)
      rw [String.toList_inj.mp htype]
    | _ => cases he
  · rintro rfl
    exact .cast v type

theorem holds_equal : db.Holds rows (.column t c :: .text " = " :: r) ↔
    ∃ v, db.Denotes rows r v ∧ db.equal (rows t c) v := by
  constructor
  · generalize he : (.column t c :: .text " = " :: r : Sql) = e
    intro h
    cases h with
    | equal hr heq =>
      cases he
      exact ⟨_, hr, heq⟩
    | among => simp at he
    | member => cases he
  · rintro ⟨v, hr, heq⟩
    exact .equal hr heq

theorem holds_columns {u d : String} :
    db.Holds rows [.column t c, .text " = ", .column u d] ↔ db.equal (rows t c) (rows u d) := by
  rw [holds_equal]
  simp only [denotes_column, exists_eq_left]

theorem holds_among {vs : List Document} {type : Option String} :
    db.Holds rows (.column t c :: .text " IN " ::
      Sql.parenthesized (Sql.join ", " (vs.map fun v => [.value v type]))) ↔
    ∃ v ∈ vs, ∃ w, db.Denotes rows [.value v type] w ∧ db.equal (rows t c) w := by
  constructor
  · generalize he : (.column t c :: .text " IN " ::
      Sql.parenthesized (Sql.join ", " (vs.map fun v => [.value v type])) : Sql) = e
    intro h
    cases h with
    | equal => simp at he
    | @among _ _ _ type' _ _ hv hw heq =>
      simp only [Sql.parenthesized, List.cons_append, List.cons.injEq, Piece.column.injEq,
        true_and] at he
      obtain ⟨⟨rfl, rfl⟩, he⟩ := he
      have hmem := List.mem_map_of_mem (f := (Piece.value · type')) hv
      rw [← Sql.join_values_inj (List.append_cancel_right he)] at hmem
      obtain ⟨v', hv', hpiece⟩ := List.mem_map.mp hmem
      cases hpiece
      exact ⟨_, hv', _, hw, heq⟩
    | member => cases he
  · rintro ⟨v, hv, w, hw, heq⟩
    exact .among hv hw heq

theorem holds_member {m : Membership} {key : Document}
    (hkey : Query.keyLiteral key = .ok m.literal) :
    db.Holds rows [.text m.text] ↔ ∃ l ∈ db.rows m.table, db.equal (l m.foreignKey) key ∧
      db.equal (rows m.column.table m.column.column) (l m.other) := by
  constructor
  · generalize he : ([.text m.text] : Sql) = e
    intro h
    cases h with
    | member hkey' hl hforeign hother =>
      cases Membership.text_injective (Piece.text.inj (List.cons.inj he).1)
      cases Query.keyLiteral_injective hkey hkey'
      exact ⟨_, hl, hforeign, hother⟩
    | _ => cases he
  · rintro ⟨l, hl, hforeign, hother⟩
    exact .member hkey hl hforeign hother

end Database

end RelQuery

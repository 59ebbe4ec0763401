import RelQuery.Proofs.Filter.WellFormed
import RelQuery.Proofs.Statement.Placeholders

/-!
# Comparisons inside documents

What SQL takes out of a document is text, which it compares with text only. So a comparison inside a
document binds its operand as text, whatever it was. A test for a truth value is the exception: it
is written like the test of a boolean column.
-/

namespace RelQuery

/-- Bound as text, or as null. -/
def Document.IsText : Document → Prop
  | .null | .str _ => True
  | _ => False

namespace Comparison

/-- What a text is compared with: null, or placeholders that are bound as text and not cast. -/
inductive TextOperand : Sql → Prop
  | null : TextOperand [.text "NULL"]
  | one {v : Document} : v.IsText → TextOperand [.value v none]
  | range {low high : Document} : low.IsText → high.IsText →
      TextOperand [.value low none, .text " AND ", .value high none]
  | list {vs : List Document} : vs ≠ [] → (∀ v ∈ vs, v.IsText) →
      TextOperand (Sql.parenthesized (Sql.join ", " (vs.map fun v => [.value v none])))

/-- A comparison that is written as one of text with text. With a list without values nothing is
compared. -/
inductive ComparesText (c : Comparison) (column : ColumnRef) : Sql → Prop
  | operand {right : Sql} : TextOperand right → ComparesText c column (c.compared column right)
  | noValues {truth : String} : truth ∈ ["TRUE", "FALSE"] →
      ComparesText c column (c.emptyList truth)

/-- A test whether what is compared is the truth value `b`. -/
structure TestsTruth (c : Comparison) (b : Bool) : Prop where
  operator : c.operator = .is ∨ c.operator = .not
  operand : c.operand = .plain (.bool b)

/-- A test for the truth value `b`, as it is written. -/
def truthTest (c : Comparison) (column : ColumnRef) (b : Bool) : Sql :=
  c.compared column [.text (if b then "TRUE" else "FALSE")]

variable {c : Comparison} {column : ColumnRef} {sql right : Sql} {v : Document} {b : Bool}

theorem sql_of_testsTruth (h : c.TestsTruth b) : c.sql column = .ok (c.truthTest column b) := by
  unfold Comparison.sql
  rcases h.operator with hop | hop <;> simp only [h.operand, hop, truthTest, compared]

section
variable (hdoc : c.path.documentPath ≠ [])
include hdoc

/-- Inside a document every value is bound as text, without a cast. -/
theorem exists_text (v : Document) : ∃ t : Document, t.IsText ∧ c.bound v = .value t none := by
  have hinside : (!c.path.documentPath.isEmpty) = true := by simpa using hdoc
  rw [bound, cast?, hinside, Bool.true_or, if_pos rfl]
  cases v with
  | null => exact ⟨.null, trivial, rfl⟩
  | str t => exact ⟨.str t, trivial, rfl⟩
  | _ => exact ⟨.str _, trivial, rfl⟩

theorem textOperand_one (v : Document) : TextOperand [c.bound v] := by
  obtain ⟨t, htext, heq⟩ := exists_text hdoc v
  exact heq ▸ .one htext

theorem textOperand_range (low high : Document) :
    TextOperand [c.bound low, .text " AND ", c.bound high] := by
  obtain ⟨l, hl, hlow⟩ := exists_text hdoc low
  obtain ⟨t, ht, hhigh⟩ := exists_text hdoc high
  rw [hlow, hhigh]
  exact .range hl ht

theorem textOperand_list {items : List Document} (h : items ≠ []) :
    TextOperand (Sql.parenthesized (Sql.join ", " (items.map fun v => [c.bound v]))) := by
  choose t htext hbound using exists_text hdoc
  have hitems : (items.map fun v => [c.bound v]) = (items.map t).map fun v => [.value v none] := by
    rw [List.map_map]
    exact List.map_congr_left fun v _ => congrArg (· :: []) (hbound v)
  rw [hitems]
  refine .list (by simpa using h) fun v hv => ?_
  obtain ⟨d, -, rfl⟩ := List.mem_map.mp hv
  exact htext d

/-- Inside a document an operand is compared as text, but for a truth value that is tested. -/
theorem comparesText_of_sql (hplain : c.operand = .plain v) (htruth : ∀ b, ¬c.TestsTruth b)
    (h : c.sql column = .ok sql) : c.ComparesText column sql := by
  cases written_of_sql h with
  | cast hcast => cases hplain.symm.trans hcast
  | null => exact .operand .null
  | truth hop hv => exact (htruth _ ⟨hop, hv⟩).elim
  | noValues hop => rcases hop with ⟨-, rfl⟩ | ⟨-, rfl⟩ <;> exact .noValues (by decide)
  | range => exact .operand (textOperand_range hdoc _ _)
  | list _ _ _ hne => exact .operand (textOperand_list hdoc hne)
  | pattern => exact .operand (.one trivial)
  | value => exact .operand (textOperand_one hdoc _)

/-- The name of a truth value is no operand of text. -/
theorem not_comparesText_truthTest : ¬c.ComparesText column (c.truthTest column b) := by
  intro h
  generalize hsql : c.truthTest column b = sql at h
  cases h with
  | operand hright =>
    have hvalue := (List.cons.inj (List.append_cancel_left hsql)).2
    cases hright with
    | null | list => cases b <;> simp [Sql.parenthesized] at hvalue
    | one | range => cases hvalue
  | noValues htruth =>
    obtain ⟨key, keys, hkeys⟩ := List.exists_cons_of_ne_nil hdoc
    have hinside : ¬c.path.documentPath.isEmpty := by simpa using hdoc
    rw [truthTest, compared, subject, if_neg hinside, emptyList, hkeys] at hsql
    cases hsql

theorem comparesText_iff (hplain : c.operand = .plain v) (h : c.sql column = .ok sql) :
    (c.ComparesText column sql ↔ ∀ b, ¬c.TestsTruth b) ∧
      ∀ b, c.TestsTruth b → sql = c.truthTest column b := by
  have hwritten : ∀ b, c.TestsTruth b → sql = c.truthTest column b := fun b hb =>
    Except.ok.inj (h.symm.trans (sql_of_testsTruth hb))
  refine ⟨⟨fun hsql b hb => ?_, fun htruth => comparesText_of_sql hdoc hplain htruth h⟩, hwritten⟩
  rw [hwritten b hb] at hsql
  exact not_comparesText_truthTest hdoc hsql

end

end Comparison

/-! ## What compiles -/

namespace Filter

/-- A leaf with the text it is written as: inside a document a comparison is one with text, but for
a test of a truth value. -/
structure WritesText (s : Schema) (m : Model) (table : String) (l : Filter) (sql : Sql) : Prop where
  atom : l.Atom s m table sql
  inside : ∀ c, l = .comparison c → c.path.documentPath ≠ [] →
    ∃ column, c.column s m table = .ok column ∧
      (c.ComparesText column sql ↔ ∀ b, ¬c.TestsTruth b) ∧
      ∀ b, c.TestsTruth b → sql = c.truthTest column b

variable {s : Schema} {m : Model} {table model : String} {scope : Scope} {value : Document}
  {f l : Filter} {op : Operator} {c : Comparison}

/-- Inside a document an operand stays as the client gave it. -/
theorem plain_of_leaf (h : leaf s scope op value = .ok (.comparison c))
    (hdoc : c.path.documentPath ≠ []) : c.operand = .plain value := by
  obtain ⟨a, op', -, -, -, ⟨e, literal, -, -, heq⟩ | ⟨operand, -, hoperand, heq⟩⟩ := leaf_cases h
  · cases heq
  · cases heq
    have hinside : (!scope.documentPath.isEmpty) = true := by simpa using hdoc
    rwa [hinside, Bool.true_or, if_pos rfl] at hoperand

theorem writesText_of_leaf (hl : ∀ c, l = .comparison c → c.path.documentPath ≠ [] →
      ∃ d, c.operand = .plain d) {sql : Sql} (h : l.Atom s m table sql) :
    l.WritesText s m table sql where
  atom := h
  inside c heq hdoc := by
    obtain ⟨d, hplain⟩ := hl c heq hdoc
    subst heq
    cases h with
    | comparison hcolumn hsql =>
      exact ⟨_, hcolumn, Comparison.comparesText_iff hdoc hplain hsql⟩

/-- Every filter that compiles has a condition, which holds the text of each comparison in order.
Inside a document the text compares text with text, except where a truth value is tested. -/
theorem writesText_of_compile (h : compile s model value = .ok f) :
    ∃ m, s.model model = .ok m ∧ ∀ table, ∃ c, f.condition s m table = .ok c ∧
      List.Forall₂ (WritesText s m table) f.leaves c.atoms := by
  obtain ⟨m, hm, -⟩ := compile_eq_ok.mp h
  have hplain : ∀ l ∈ f.leaves, ∀ c, l = .comparison c → c.path.documentPath ≠ [] →
      ∃ d, c.operand = .plain d := by
    rintro _ hl c rfl hdoc
    obtain ⟨scope, op, d, hleaf, -⟩ := exists_leaf_of_compile hm h hl rfl
    exact ⟨d, plain_of_leaf hleaf hdoc⟩
  refine ⟨m, hm, fun table => ?_⟩
  obtain ⟨c, hc⟩ := (writable_of_compile hm h).exists_condition table
  refine ⟨c, hc, ?_⟩
  exact ((List.forall₂_and_left f.leaves c.atoms).mpr ⟨hplain, atoms_of_condition hc⟩).imp
    fun _ _ h => writesText_of_leaf h.1 h.2

/-! ### Parcels by their gifts -/

/-- A comparison with the gift in the contents of a parcel. -/
def giftIs (op : Operator) (value : Document) : Comparison :=
  ⟨⟨[], "contents", ["gift"]⟩, op, .plain value, none, false⟩

/-- The parcels with one of some gifts. -/
def giftAmong (items : List Document) : Document :=
  .obj [("contents", .obj [("gift", .arr items)])]

/-- The parcels of which it is true that there is a gift. -/
def giftTrue : Document := .obj [("contents", .obj [("gift", .obj [("_isOp", .bool true)])])]

theorem compile_giftAmong : compile parcelSchema "Parcel" (giftAmong [.bool true, .null]) =
    .ok (.comparison (giftIs .isIn (.arr [.bool true, .null]))) := by
  simp only [giftAmong, compile, compileValue, compileFields]
  rfl

theorem compile_giftTrue : compile parcelSchema "Parcel" giftTrue =
    .ok (.comparison (giftIs .is (.bool true))) := by
  simp only [giftTrue, compile, compileValue, compileFields]
  rfl

/-- In a list a truth value is compared as text. -/
theorem giftAmong_comparesText : ∃ m column sql, parcelSchema.model "Parcel" = .ok m ∧
    (giftIs .isIn (.arr [.bool true, .null])).column parcelSchema m "Parcel" = .ok column ∧
    (giftIs .isIn (.arr [.bool true, .null])).ComparesText column sql := by
  obtain ⟨m, hm, hwritten⟩ := writesText_of_compile compile_giftAmong
  obtain ⟨c, -, hatoms⟩ := hwritten "Parcel"
  obtain ⟨sql, -, hsql, -⟩ := List.forall₂_cons_left_iff.mp hatoms
  obtain ⟨column, hcolumn, hiff, -⟩ := hsql.inside _ rfl (List.cons_ne_nil _ _)
  exact ⟨m, column, sql, hm, hcolumn, hiff.mpr fun b hb => by cases hb.operand⟩

/-- A test for a truth value compiles, and is written against the text of the document: it does not
compare text with text. -/
theorem giftTrue_not_comparesText : ∃ m column sql, parcelSchema.model "Parcel" = .ok m ∧
    compile parcelSchema "Parcel" giftTrue = .ok (.comparison (giftIs .is (.bool true))) ∧
    (giftIs .is (.bool true)).column parcelSchema m "Parcel" = .ok column ∧
    (giftIs .is (.bool true)).sql column = .ok sql ∧
    sql.statement =
      ⟨"(\"Parcel\".\"contents\" #>> ARRAY[$1]::text[]) IS TRUE", [.str "gift"]⟩ ∧
    ¬(giftIs .is (.bool true)).ComparesText column sql :=
  ⟨_, _, _, rfl, compile_giftTrue, rfl, Comparison.sql_of_testsTruth ⟨.inl rfl, rfl⟩, rfl,
    Comparison.not_comparesText_truthTest (List.cons_ne_nil _ _)⟩

end Filter

end RelQuery

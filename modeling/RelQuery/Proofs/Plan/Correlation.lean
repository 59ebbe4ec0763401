import RelQuery.Proofs.Filter.Local
import RelQuery.Proofs.Include.Steps
import RelQuery.Proofs.Plan.Restricted
import RelQuery.Proofs.Schema.Sound
import RelQuery.Proofs.Statement.Meaning

/-!
# The rows of an association

Three statements read the rows of an association: the one that joins it, the one that reads it for
many parents at once, and the list behind one row. Each takes its key columns from the association
in its own way. The main statement says that all three find the rows that belong to the key of the
parent, directly or by a row of the link table.
-/

namespace RelQuery

universe u

/-- The rows of the target that belong to a row of the source with this key. -/
def Association.children (db : Database) (a : Association) (t : Model) (key : Document) :
    Set Cells :=
  {r | r ∈ db.rows t.table ∧
    match a.usedLink? with
    | none => db.equal (r (t.columnOf (a.childKey t))) key
    | some link => ∃ l ∈ db.rows link.table, db.equal (l link.foreignKey) key ∧
      db.equal (r (t.columnOf t.primaryKey)) (l link.otherKey)}

/-- Something holds of the rows at hand, with a row of the link table that matches if there is a
link table. -/
def Database.Through (db : Database) (rows : Bindings)
    (link : Option (String × String × ColumnRef × ColumnRef)) (P : Bindings → Prop) : Prop :=
  match link with
  | none => P rows
  | some (table, name, left, right) => ∃ l ∈ db.rows table,
    db.Holds (rows.bind name l) [left.piece, .text " = ", right.piece] ∧ P (rows.bind name l)

/-- The rows of its table that a join puts beside the rows at hand. -/
def Join.matched (db : Database) (rows : Bindings) (j : Join) : Set Cells :=
  {r | r ∈ db.rows j.table ∧ db.Through (rows.bind j.name r) j.link (db.Holds · j.on)}

/-- The rows of its table that a batch without further joins reads for the parent with this key. -/
def Batch.matched (db : Database) (b : Batch) (key : Document) : Set Cells :=
  {r | r ∈ db.rows b.table ∧
    db.Through (Bindings.empty.bind b.name r) b.link fun rows =>
      db.Holds rows b.condition ∧ db.equal (rows b.parent.table b.parent.column) key}

/-- A join as it is written. A link table stands before the table that it leads to. -/
def Join.Written (required : Bool) (j : Join) : Prop :=
  j.sql = [.text (if required then " INNER JOIN " else " LEFT OUTER JOIN ")] ++
    (match j.link with
      | none => [.name j.table, .text " AS ", .name j.name]
      | some (table, name, left, right) =>
        [.text "(", .name table, .text " AS ", .name name, .text " INNER JOIN ", .name j.table,
          .text " AS ", .name j.name, .text " ON ", left.piece, .text " = ", right.piece,
          .text ")"]) ++
    .text " ON " :: j.on

/-- A batch without further joins as it is written. A link table stands behind the table, and each
row has the key of its parent. -/
def Batch.Written (b : Batch) : Prop :=
  ∃ columns, b.sql = .text "SELECT " :: columns ++
    [b.parent.piece, .text " AS ", .name "__parent__", .text " FROM ", .name b.table, .text " AS ",
      .name b.name] ++
    (match b.link with
      | none => []
      | some (table, name, left, right) =>
        [.text " INNER JOIN ", .name table, .text " AS ", .name name, .text " ON ", left.piece,
          .text " = ", right.piece]) ++
    .text " WHERE " :: b.condition ++
    [.text " ORDER BY ", b.parent.piece, .text ", ", b.primaryKey.piece]

/-- The rows of `m` that a condition on it admits. -/
def Condition.admitted (db : Database) (rows : Bindings) (m : Model) (c : Condition) : Set Cells :=
  {r | r ∈ db.rows m.table ∧ db.Holds (rows.bind m.name r) c.sql}

/-- A value that casts to a type leave as it is. -/
def Database.OfType (db : Database) (type : ScalarType) (v : Document) : Prop :=
  ∀ cast, type.placeholderCast? = some cast ∨ type.sqlName = cast → db.cast cast v = v

/-- The value an operand stands for. -/
def Operand.value : Operand → Document
  | .plain v => v
  | .cast literal _ => .str literal

/-- The row called `table` has a key by which the association finds rows: a number or a string, of
the type of its attribute. -/
structure Association.Keyed (db : Database) (a : Association) (parent : Model) (table : String)
    (rows : Bindings) (key : Document) : Prop where
  cell : rows table (parent.columnOf (a.parentKey parent)) = key
  literal : ∃ l, Query.keyLiteral key = .ok l
  type : ∀ b, parent.attribute? (a.parentKey parent) = some b → db.OfType b.type key

/-- A filter under `name` compares a stored attribute with the key as it stands: the name is not
read as an operator, and the type of the attribute leaves the key as it is. -/
structure Model.Compares (db : Database) (s : Schema) (m : Model) (name : String)
    (key : Document) : Prop where
  operator : Filter.operatorName? name = none
  expression : name ≠ Filter.expressionKey
  stored : ∀ a, m.attribute? name = some a → a.computed = none
  type : ∀ a, m.attribute? name = some a → db.OfType a.type key
  coerced : ∀ a, m.attribute? name = some a →
    ∃ o, Operand.ofValue a.type s.options.dialect key a.name = .ok o ∧ o.value = key

/-- A node of an association that takes all its rows: it has neither filter nor page, and nothing is
joined below it. -/
structure Include.Whole (n : Include) (a : Association) (t : Model) : Prop where
  name : n.name = a.name
  attributes : n.attributes ⊆ t.attributeNames
  filter : n.filter = none
  limit : n.limit = none
  offset : n.offset = none
  below : ∀ c ∈ n.includes, c.separate = true

/-- Each way to load an association finds the rows that belong to the key: its join, its batch for
parents one of which has the key, and the condition that the list behind one row adds to what the
filter of the target's list says. -/
structure Association.Loads (db : Database) (s : Schema) (a : Association) (parent t : Model)
    (n : Include) (table : String) (rows : Bindings) (key : Document) (keys : List Document) :
    Prop where
  joined : ∃ j, Include.joins s parent table { n with separate := false } = .ok [j] ∧
    j.Written n.required ∧ j.matched db rows = a.children db t key
  separate : ∃ b, Include.batch s parent { n with separate := true } keys = .ok b ∧
    b.joins = [] ∧ b.page = none ∧ b.Written ∧ b.matched db key = a.children db t key
  listed : ∃ f condition, (∀ (field : Field) (row : Document) (info : ExecutionInfo),
      parent.associationForField? field.name = some a → row.get? (a.parentKey parent) = some key →
      Query.associationList s parent.name field row info =
        (Query.restrict · f) <$> Query.rootList s t.name field info) ∧
    (∀ q : Plan, Query.restrict q f = { q with filter := (Query.restrict q f).filter } ∧
      ∀ {α : Type u} [Lattice α] [BoundedOrder α] [Compl α] (v : Valuation α),
        Filter.evalOption v (Query.restrict q f).filter =
          Filter.evalOption v q.filter ⊓ f.eval v) ∧
    f.condition s t t.name = .ok condition ∧
    ∀ others, condition.admitted db others t = a.children db t key

variable {db : Database} {s : Schema} {parent t : Model} {assoc : Association} {n : Include}
  {rows : Bindings} {table : String} {key : Document} {keys : List Document}

/-! ## Names of tables -/

theorem length_joinName (table name : String) :
    (joinName table [name]).length = table.length + 2 + name.length := by
  have h : joinName table [name] = table ++ "->" ++ name := rfl
  rw [h, String.length_append, String.length_append]
  rfl

theorem ne_joinName (table name : String) : table ≠ joinName table [name] := by
  intro h
  have hlength := congrArg String.length h
  rw [length_joinName] at hlength
  omega

theorem ne_linkName (table : String) : table ≠ linkName table := ne_joinName table "through"

theorem ne_linkName_joinName (table name : String) : table ≠ linkName (joinName table [name]) := by
  intro h
  have hlength := congrArg String.length h
  rw [linkName, length_joinName, length_joinName] at hlength
  omega

/-! ## Joined -/

theorem Join.written {j : Join} {required : Bool} (h : j.required = required) :
    j.Written required := by
  cases hlink : j.link <;>
    simp [Written, sql, source, h, hlink, Sql.named, Sql.parenthesized]

/-- A join finds the rows that belong to the key of the parent. -/
theorem Join.matched_joinOf {required : Bool}
    (hcell : rows table (parent.columnOf (assoc.parentKey parent)) = key) :
    (Include.joinOf assoc parent t table required none).matched db rows =
      assoc.children db t key := by
  have hparent := ne_joinName table assoc.name
  ext r
  cases hlink : assoc.usedLink? with
  | none =>
    simp only [Association.children, matched, Include.joinOf, hlink, Database.Through, on,
      ColumnRef.piece, List.append_nil, Database.holds_columns, Bindings.bind_self,
      Bindings.bind_of_ne hparent, hcell]
  | some link =>
    have hown := ne_linkName (joinName table [assoc.name])
    have hlinked := ne_linkName_joinName table assoc.name
    simp only [Association.children, matched, Include.joinOf, hlink, Database.Through, on,
      ColumnRef.piece, List.append_nil, Database.holds_columns, Bindings.bind_self,
      Bindings.bind_of_ne hparent, Bindings.bind_of_ne hown, Bindings.bind_of_ne hlinked, hcell]
    exact and_congr_right fun _ => exists_congr fun l => and_congr_right fun _ => and_comm

namespace Include

variable {ns : List Include}

theorem joinsAll_of_separate (h : ∀ c ∈ ns, c.separate = true) :
    joinsAll s parent table ns = .ok [] := by
  have hempty : ns.mapM (joins s parent table) = .ok (ns.map fun _ => []) :=
    mapM_of_eq_ok fun c hc => joins_of_separate (h c hc)
  rw [joinsAll_eq_mapM, hempty]
  simp

theorem columnsAll_of_separate {columnKey : String} (h : ∀ c ∈ ns, c.separate = true) :
    columnsAll s parent table columnKey ns = .ok [] := by
  have hempty : ns.mapM (columns s parent table columnKey) = .ok (ns.map fun _ => []) :=
    mapM_of_eq_ok fun c hc => columns_of_separate (h c hc)
  rw [columnsAll_eq_mapM, hempty]
  simp

theorem joins_of_whole (h : n.Whole assoc t) (hf : s.follow parent assoc.name = .ok (assoc, t)) :
    joins s parent table { n with separate := false } =
      .ok [joinOf assoc parent t table n.required none] := by
  have hfollow : s.follow parent n.name = .ok (assoc, t) := h.name ▸ hf
  rw [joins_steps (n := { n with separate := false }) rfl, hfollow]
  simp [Filter.condition?, h.filter, joinsAll_of_separate h.below]

/-! ## Separate -/

/-- The batch of a node that takes all rows of its association. -/
def wholeBatch (assoc : Association) (parent t : Model) (columns : List Sql)
    (keys : List Document) : Batch where
  columns
  table := t.table
  name := t.name
  link := assoc.usedLink?.map fun link =>
    (link.table, linkName t.name, ⟨linkName t.name, link.otherKey⟩,
      ⟨t.name, t.columnOf t.primaryKey⟩)
  joins := []
  parent := match assoc.usedLink? with
    | some link => ⟨linkName t.name, link.foreignKey⟩
    | none => ⟨t.name, t.columnOf (assoc.childKey t)⟩
  primaryKey := ⟨t.name, t.columnOf t.primaryKey⟩
  keys
  keyCast := (parent.attribute? (assoc.parentKey parent)).bind (·.type.placeholderCast?)
  filter := none
  page := none

theorem exists_batch (h : n.Whole assoc t) (hf : s.follow parent assoc.name = .ok (assoc, t)) :
    ∃ columns, batch s parent { n with separate := true } keys =
      .ok (wholeBatch assoc parent t columns keys) := by
  have hfollow : s.follow parent n.name = .ok (assoc, t) := h.name ▸ hf
  have hitems : ∃ items, n.attributes.mapM
      (fun name => (SelectItem.column name).sql t t.name) = .ok items := by
    refine exists_mapM fun name hname => ?_
    obtain ⟨a, ha⟩ := Model.exists_requireAttribute (h.attributes hname)
    exact ⟨Sql.named (a.selected t t.name) name, by simp [SelectItem.sql, ha]⟩
  obtain ⟨items, hitems⟩ := hitems
  refine ⟨items ++ [], ?_⟩
  cases hlink : assoc.usedLink? <;>
    simp [batch, hfollow, hitems, columnsAll_of_separate h.below, joinsAll_of_separate h.below,
      h.filter, page, h.limit, h.offset, wholeBatch, hlink]

end Include

namespace Database

variable {link : Option (String × String × ColumnRef × ColumnRef)} {P Q : Bindings → Prop}
  {w : Document}

theorem through_congr (h : ∀ rows, P rows ↔ Q rows) :
    db.Through rows link P ↔ db.Through rows link Q := by
  cases link with
  | none => exact h rows
  | some link => exact exists_congr fun l => and_congr_right fun _ => and_congr_right fun _ => h _

theorem denotes_key {cast : Option String}
    (h : ∀ type, cast = some type → db.cast type key = key) :
    db.Denotes rows [.value key cast] w ↔ w = key := by
  cases cast with
  | none => exact denotes_value
  | some type => rw [denotes_typed, h type rfl]

end Database

namespace Batch

theorem written {b : Batch} (hjoins : b.joins = []) (hpage : b.page = none) : b.Written := by
  obtain ⟨before, hbefore⟩ : Sql.named [b.parent.piece] parentKeyColumn <:+
      Sql.join ", " (b.columns ++ [Sql.named [b.parent.piece] parentKeyColumn]) :=
    Sql.suffix_join_concat
  refine ⟨before, ?_⟩
  simp only [sql, hpage, rows, hjoins, Option.isSome_none, Bool.false_eq_true, if_false,
    List.append_nil, ← hbefore]
  cases h : b.link <;> simp [source, h, Sql.named, parentKeyColumn]

/-- The condition of a batch holds of a row with one of its keys. -/
theorem holds_condition {b : Batch} (hfilter : b.filter = none) (hkey : key ∈ b.keys)
    (hcast : ∀ type, b.keyCast = some type → db.cast type key = key)
    (h : db.equal (rows b.parent.table b.parent.column) key) : db.Holds rows b.condition := by
  have hpresent : b.keys.isEmpty = false := List.isEmpty_eq_false_iff_exists_mem.mpr ⟨key, hkey⟩
  simp only [condition, correlation, hpresent, hfilter, Bool.false_eq_true, if_false,
    List.append_nil]
  exact Database.holds_among.mpr ⟨key, hkey, key, (Database.denotes_key hcast).mpr rfl, h⟩

/-- A batch finds, for each of its keys, the rows that belong to it. -/
theorem matched_wholeBatch {columns : List Sql} (hkey : key ∈ keys)
    (htype : ∀ b, parent.attribute? (assoc.parentKey parent) = some b → db.OfType b.type key) :
    (Include.wholeBatch assoc parent t columns keys).matched db key = assoc.children db t key := by
  have hcast : ∀ type, (Include.wholeBatch assoc parent t columns keys).keyCast = some type →
      db.cast type key = key := by
    intro type h
    obtain ⟨b, hb, hcast⟩ := Option.bind_eq_some_iff.mp h
    exact htype b hb type (.inl hcast)
  have hname := ne_linkName t.name
  ext r
  refine and_congr_right fun _ => (Database.through_congr fun rows =>
    and_iff_right_of_imp (holds_condition rfl hkey hcast)).trans ?_
  cases hlink : assoc.usedLink? with
  | none => simp only [Include.wholeBatch, hlink, Database.Through, Option.map_none,
      Bindings.bind_self]
  | some link =>
    simp only [Include.wholeBatch, hlink, Database.Through, Option.map_some, ColumnRef.piece,
      Database.holds_columns, Bindings.bind_self, Bindings.bind_of_ne hname]
    refine exists_congr fun l => and_congr_right fun _ => ?_
    rw [and_comm]
    exact and_congr_right fun _ => ⟨db.equal_symm, db.equal_symm⟩

end Batch

/-! ## The list of one row -/

namespace Query

variable {name l : String} {a : Attribute} {o : Operand} {link : LinkTable}

/-- The comparison of a stored attribute with an operand. -/
def keyComparison (a : Attribute) (o : Operand) : Comparison where
  path := ⟨[], a.name, []⟩
  operator := .eq
  operand := o
  type := some a.type
  negated := false

/-- The primary key stands in the link table beside the key with this literal. -/
def membership (t : Model) (link : LinkTable) (literal : String) : Membership where
  column := ⟨t.name, t.columnOf t.primaryKey⟩
  other := link.otherKey
  table := link.table
  foreignKey := link.foreignKey
  literal

theorem leaf_key {scope : Filter.Scope} (hattr : scope.attr = some a)
    (hpath : scope.documentPath = []) (hstored : a.computed = none)
    (hkey : keyLiteral key = .ok l)
    (ho : Operand.ofValue a.type s.options.dialect key a.name = .ok o) :
    Filter.leaf s scope .eq key = .ok (.comparison {
      path := ⟨scope.hops, a.name, []⟩
      operator := .eq
      operand := o
      type := some a.type
      negated := scope.negated }) := by
  have hnull : Operand.testForNull .eq key = .eq := by
    rcases num_or_str_of_keyLiteral hkey with ⟨n, rfl⟩ | ⟨t, rfl⟩ <;> rfl
  have hshape : Operand.checkShape .eq key a.name = .ok () := by
    rcases num_or_str_of_keyLiteral hkey with ⟨n, rfl⟩ | ⟨t, rfl⟩ <;> rfl
  simp [Filter.leaf, hattr, hpath, hstored, hnull, hshape, ho, Operator.isPattern]

/-- A key is compared as it stands under the name of a stored attribute. -/
theorem compile_key (ht : s.model t.name = .ok t) (hop : Filter.operatorName? name = none)
    (hexp : name ≠ Filter.expressionKey) (ha : t.attribute? name = some a)
    (hstored : a.computed = none) (hkey : keyLiteral key = .ok l)
    (ho : Operand.ofValue a.type s.options.dialect key a.name = .ok o) :
    Filter.compile s t.name (.obj [(name, key)]) = .ok (.comparison (keyComparison a o)) := by
  have hholds : Filter.holdsFilters ((Filter.Scope.root t).atAttribute a) key = false := by
    rcases num_or_str_of_keyLiteral hkey with ⟨n, rfl⟩ | ⟨t, rfl⟩ <;> rfl
  have himplied : Filter.impliedOperator key = .eq := by
    rcases num_or_str_of_keyLiteral hkey with ⟨n, rfl⟩ | ⟨t, rfl⟩ <;> rfl
  have hvalue : Filter.compileValue s ((Filter.Scope.root t).atAttribute a) key =
      .ok (.comparison (keyComparison a o)) := by
    rw [Filter.compileValue_eq_ok_leaf hholds, himplied]
    exact leaf_key rfl rfl hstored hkey ho
  have hentry : Filter.compileEntry s (.root t) name key =
      .ok (.comparison (keyComparison a o)) := by
    rw [Filter.compileEntry, Filter.role_attribute hop hexp ha]
    exact hvalue
  rw [Filter.compile, ht, ok_bind]
  simp only [Filter.isBracket, if_true, Filter.compileValue, Filter.compileFields_cons, hentry,
    ok_bind]
  rfl

/-- What a key is compared with is the key, or a text that is cast to the type. -/
theorem ofValue_key {type : ScalarType} {dialect : Dialect} (hkey : keyLiteral key = .ok l)
    (ho : Operand.ofValue type dialect key name = .ok o) (hvalue : o.value = key) :
    o = .plain key ∨ ∃ text, o = .cast text type.sqlName ∧ key = .str text := by
  cases key with
  | num n =>
    obtain ⟨v, -, hv⟩ := bind_eq_ok.mp ho
    cases pure_eq_ok.mp hv
    exact .inl (congrArg Operand.plain hvalue)
  | str t =>
    rw [Operand.ofValue] at ho
    split at ho
    · rename_i htype
      obtain ⟨text, -, hv⟩ := bind_eq_ok.mp ho
      cases pure_eq_ok.mp hv
      exact .inr ⟨text, by rw [htype.1], hvalue.symm⟩
    · obtain ⟨v, -, hv⟩ := bind_eq_ok.mp ho
      cases pure_eq_ok.mp hv
      exact .inl (congrArg Operand.plain hvalue)
  | _ => cases hkey

/-- The condition on the key puts it beside the column of the attribute. -/
theorem condition_key (hkey : keyLiteral key = .ok l)
    (ho : Operand.ofValue a.type s.options.dialect key a.name = .ok o) (hvalue : o.value = key)
    (htype : db.OfType a.type key) :
    ∃ right, (Filter.comparison (keyComparison a o)).condition s t t.name =
        .ok (.atom (.column t.name (t.columnOf a.name) :: .text " = " :: right)) ∧
      ∀ rows w, db.Denotes rows right w ↔ w = key := by
  rcases ofValue_key hkey ho hvalue with rfl | ⟨text, rfl, rfl⟩
  · refine ⟨[.value key a.type.placeholderCast?], ?_, fun rows w => ?_⟩
    · rcases num_or_str_of_keyLiteral hkey with ⟨n, rfl⟩ | ⟨t, rfl⟩ <;> rfl
    · exact Database.denotes_key fun cast hcast => htype cast (.inl hcast)
  · refine ⟨[.text "CAST(", .value (.str text) none, .text (" AS " ++ a.type.sqlName ++ ")")],
      rfl, fun rows w => ?_⟩
    rw [Database.denotes_cast, htype _ (.inr rfl)]

/-- The correlation with a key admits the rows that belong to it. -/
theorem exists_correlation (ht : s.model t.name = .ok t)
    (hchild : assoc.childKey t ∈ t.attributeNames) (hkey : keyLiteral key = .ok l)
    (hcompares : assoc.usedLink? = none → t.Compares db s (assoc.childKey t) key) :
    ∃ f c, correlation s assoc t key = .ok f ∧ f.condition s t t.name = .ok c ∧
      ∀ rows, c.admitted db rows t = assoc.children db t key := by
  cases hlink : assoc.usedLink? with
  | none =>
    have h := hcompares hlink
    obtain ⟨a, ha⟩ := Option.isSome_iff_exists.mp (Model.attribute?_isSome.mpr hchild)
    obtain ⟨o, ho, hvalue⟩ := h.coerced a ha
    obtain ⟨right, hcondition, hright⟩ := condition_key (t := t) hkey ho hvalue (h.type a ha)
    refine ⟨_, _, ?_, hcondition, fun rows => ?_⟩
    · rw [correlation, hlink]
      exact compile_key ht h.operator h.expression ha (h.stored a ha) hkey ho
    · ext r
      simp only [Condition.admitted, Association.children, hlink, Condition.sql,
        Database.holds_equal, hright, exists_eq_left, Bindings.bind_self,
        Model.name_of_attribute? ha]
  | some link =>
    refine ⟨.raw (membership t link l).text, _, ?_, rfl, fun rows => ?_⟩
    · rw [correlation, hlink]
      simp only [hkey, ok_bind]
      rfl
    · ext r
      have hkey : keyLiteral key = .ok (membership t link l).literal := hkey
      refine and_congr_right fun _ => (Database.holds_member hkey).trans ?_
      simp only [hlink, membership, Bindings.bind_self]

/-- The list behind a field restricts the list of the target by the correlation with the key. -/
theorem associationList_eq {field : Field} {info : ExecutionInfo} {row : Document} {f : Filter}
    (hparent : s.model parent.name = .ok parent)
    (hassoc : parent.associationForField? field.name = some assoc)
    (ht : s.targetOf assoc = .ok t) (hrow : row.get? (assoc.parentKey parent) = some key)
    (hkey : keyLiteral key = .ok l) (hf : correlation s assoc t key = .ok f) :
    associationList s parent.name field row info =
      (restrict · f) <$> rootList s t.name field info := by
  have hrequire : requireField parent field.name = .ok assoc := by rw [requireField, hassoc]
  have hrowkey : parentKeyOf parent assoc field.name row = .ok key := by
    rw [parentKeyOf, hrow]
    rcases num_or_str_of_keyLiteral hkey with ⟨n, rfl⟩ | ⟨t, rfl⟩ <;> rfl
  simp only [associationList, hparent, hrequire, ht, hrowkey, hf, ok_bind]
  cases rootList s t.name field info <;> rfl

/-! ## The main statement -/

/-- However an association is loaded, joined, separately or as a list of its own, the rows loaded
are those that belong to the key of the parent. -/
theorem loads_of_build {c : Config} {model : String} (hbuild : Schema.build c = .ok s)
    (hparent : s.model model = .ok parent) (hassoc : assoc ∈ parent.associations)
    (ht : s.targetOf assoc = .ok t) (hn : n.Whole assoc t)
    (hkeyed : assoc.Keyed db parent table rows key)
    (hcompares : assoc.usedLink? = none → t.Compares db s (assoc.childKey t) key)
    (hkeys : key ∈ keys) : assoc.Loads db s parent t n table rows key keys := by
  have hmem := Schema.mem_of_model hparent
  have hfollow := Schema.follow_of_mem hbuild hmem hassoc ht
  have hchild := Schema.childKey_of_build hbuild hmem hassoc ht
  obtain ⟨l, hkey⟩ := hkeyed.literal
  constructor
  case joined =>
    exact ⟨_, Include.joins_of_whole hn hfollow, Join.written Include.required_joinOf,
      Join.matched_joinOf hkeyed.cell⟩
  case separate =>
    obtain ⟨columns, hbatch⟩ := Include.exists_batch hn hfollow
    exact ⟨_, hbatch, rfl, rfl, Batch.written rfl rfl, Batch.matched_wholeBatch hkeys hkeyed.type⟩
  case listed =>
    obtain ⟨f, condition, hf, hcondition, hadmitted⟩ :=
      exists_correlation (Schema.model_name ht) hchild hkey hcompares
    refine ⟨f, condition, ?_, fun q => ⟨rfl, fun v => evalOption_restrict⟩, hcondition, hadmitted⟩
    intro field row info hfield hrow
    exact associationList_eq (Schema.model_name hparent) hfield ht hrow hkey hf

/-! ### The reviews and the tags of a product -/

def catalogue : Config where
  models := [{
      name := "Product"
      table := some "products"
      attributes := [{ name := "id", type := "INTEGER", primaryKey := true }]
      associations := [
        { kind := .hasMany, target := "Review", foreignKey := "productId" },
        { kind := .belongsToMany, target := "Tag", foreignKey := "productId",
          link := some ⟨"product_tags", "product_id", "tag_code"⟩ }] }, {
      name := "Review"
      table := some "reviews"
      attributes := [{ name := "id", type := "INTEGER", primaryKey := true },
        { name := "productId", type := "INTEGER", column := some "product_id" }] }, {
      name := "Tag"
      table := some "tags"
      attributes := [{ name := "code", type := "STRING", primaryKey := true }] }]

def catalogueSchema : Schema := ⟨catalogue.models.map (·.resolve), catalogue.options⟩

theorem build_catalogue : Schema.build catalogue = .ok catalogueSchema := by decide

def reviews : Association := ⟨"reviews", .hasMany, "Product", "Review", "productId", none, none⟩

def tags : Association :=
  ⟨"tags", .belongsToMany, "Product", "Tag", "productId", none,
    some ⟨"product_tags", "product_id", "tag_code"⟩⟩

def product : Model :=
  ⟨"Product", "products", [⟨"id", "id", .integer, false, true, none⟩], [reviews, tags]⟩

def review : Model :=
  ⟨"Review", "reviews", [⟨"id", "id", .integer, false, true, none⟩,
    ⟨"productId", "product_id", .integer, true, false, none⟩], []⟩

def tag : Model := ⟨"Tag", "tags", [⟨"code", "code", .string, false, true, none⟩], []⟩

def seven : Document := .num (.int 7 (by decide) (by decide))

/-- A row with one value in every column. -/
def filled (v : Document) : Cells := fun _ => v

/-- Product 7 is tagged as new. -/
def taggedNew : Cells := fun column => if column = "product_id" then seven else .str "new"

/-- A review of product 7 and one of no product, and two tags of which product 7 has one. -/
def shelf : Database where
  rows table :=
    if table = "reviews" then [filled seven, filled .null]
    else if table = "tags" then [filled (.str "new"), filled (.str "old")]
    else if table = "product_tags" then [taggedNew] else []
  equal v w := v = w ∧ v ≠ .null
  cast _ v := v
  equal_symm h := ⟨h.1.symm, h.1 ▸ h.2⟩
  not_equal_null _ h := h.2 h.1

def node (a : Association) (attributes : List String) : Include where
  target := a.target
  name := a.name
  kind := a.kind
  attributes
  includes := []

theorem ofType_shelf (type : ScalarType) (v : Document) : shelf.OfType type v := fun _ _ => rfl

theorem compares_productId : review.Compares shelf catalogueSchema "productId" seven where
  operator := by decide
  expression := by decide
  stored a ha := by
    cases ha
    rfl
  type a _ := ofType_shelf a.type seven
  coerced a ha := by
    cases ha
    exact ⟨.plain seven, rfl, rfl⟩

theorem whole_node {a : Association} {t : Model} {attributes : List String}
    (h : attributes ⊆ t.attributeNames) : (node a attributes).Whole a t :=
  ⟨rfl, h, rfl, rfl, rfl, nofun⟩

theorem keyed_product {a : Association} :
    a.Keyed shelf product "Product" (fun _ => filled seven) seven :=
  ⟨rfl, ⟨_, rfl⟩, fun b _ => ofType_shelf b.type seven⟩

/-- Both the reviews of product 7 and its tags are found in all three ways. -/
theorem loads_reviews_and_tags : Schema.build catalogue = .ok catalogueSchema ∧
    reviews.Loads shelf catalogueSchema product review (node reviews ["id"]) "Product"
      (fun _ => filled seven) seven [seven] ∧
    tags.Loads shelf catalogueSchema product tag (node tags ["code"]) "Product"
      (fun _ => filled seven) seven [seven] ∧
    filled seven ∈ reviews.children shelf review seven ∧
    filled .null ∉ reviews.children shelf review seven ∧
    filled (.str "new") ∈ tags.children shelf tag seven ∧
    filled (.str "old") ∉ tags.children shelf tag seven := by
  have hproduct : catalogueSchema.model "Product" = .ok product := rfl
  refine ⟨build_catalogue, ?_, ?_, ?_, ?_, ?_, ?_⟩
  · exact loads_of_build build_catalogue hproduct List.mem_cons_self rfl
      (whole_node (by decide)) keyed_product (fun _ => compares_productId) List.mem_cons_self
  · exact loads_of_build build_catalogue hproduct (List.mem_cons_of_mem _ List.mem_cons_self) rfl
      (whole_node (by decide)) keyed_product nofun List.mem_cons_self
  · exact ⟨List.mem_cons_self, rfl, nofun⟩
  · rintro ⟨-, heq, -⟩
    cases heq
  · exact ⟨List.mem_cons_self, taggedNew, List.mem_cons_self, ⟨rfl, nofun⟩, rfl, nofun⟩
  · rintro ⟨-, l, hl, -, heq, -⟩
    cases List.mem_singleton.mp hl
    exact absurd (Document.str.inj heq) (by decide)

end Query

end RelQuery

import RelQuery.Proofs.Plan.LookBack
import RelQuery.Proofs.Statement.Parts

/-!
# Placeholders

The placeholders of a statement stand for its parameters one after another. The only parameters
without one are the keys of comparisons inside a document with an empty list, whose conditions are
decided without the document.
-/

namespace RelQuery

/-! ## Text in tokens -/

/-- What a statement is written with: text that stays as it is, or the placeholder of a value. -/
inductive Token
  | fixed (text : String)
  | placeholder (v : Document) (number : Nat) (cast : Option String)

namespace Token

def text : Token → String
  | .fixed s => s
  | .placeholder _ number none => "$" ++ toString number
  | .placeholder _ number (some type) => "$" ++ toString number ++ "::" ++ type

/-- The value and the number of a placeholder. -/
def binding? : Token → Option (Document × Nat)
  | .fixed _ => none
  | .placeholder v number _ => some (v, number)

end Token

namespace Piece

/-- What a piece is written with after `n` parameters. -/
def token (n : Nat) : Piece → Token
  | .value v cast => .placeholder v (n + 1) cast
  | p => .fixed (p.write n)

/-- The value of a parameter without a placeholder. -/
def silent? : Piece → Option Document
  | .silent v => some v
  | _ => none

variable {p : Piece} {n : Nat} {s : String} {v : Document} {cast : Option String} {c : ColumnRef}

instance : SkipsText silent? := ⟨fun _ => rfl, fun _ => rfl⟩

theorem text_token : (p.token n).text = p.write n := by
  cases p with
  | value v cast => cases cast <;> rfl
  | _ => rfl

@[simp] theorem silent?_text : (text s).silent? = none := rfl

@[simp] theorem silent?_name : (name s).silent? = none := rfl

@[simp] theorem silent?_value : (value v cast).silent? = none := rfl

@[simp] theorem silent?_column {table column : String} :
    (Piece.column table column).silent? = none := rfl

@[simp] theorem silent?_piece : c.piece.silent? = none := rfl

end Piece

namespace Sql

/-- What the pieces are written with after `n` parameters. -/
def tokens : Nat → Sql → List Token
  | _, [] => []
  | n, p :: ps => p.token n :: tokens (if p.bound?.isSome then n + 1 else n) ps

/-- The placeholders after `n` parameters as they are read: the values and the numbers. -/
def placeholders (n : Nat) (ps : Sql) : List (Document × Nat) :=
  (tokens n ps).filterMap (·.binding?)

/-- The values that are parameters. -/
def params (ps : Sql) : List Document := ps.filterMap (·.bound?)

/-- The parameters without a placeholder. -/
abbrev silents (ps : Sql) : List Document := ps.filterMap Piece.silent?

variable {ps : Sql} {n : Nat}

theorem write_eq_tokens : write n ps = String.join ((tokens n ps).map (·.text)) := by
  induction ps generalizing n with
  | nil => rfl
  | cons p ps ih => rw [write, tokens, List.map_cons, String.join_cons, Piece.text_token, ih]

/-- Every placeholder is the next one, and stands for the next parameter, but some parameters are
left out. -/
theorem placeholders_sublist : (placeholders n ps).Sublist ((params ps).zipIdx (n + 1)) := by
  induction ps generalizing n with
  | nil => exact .slnil
  | cons p ps ih =>
    cases p with
    | value v cast => exact (ih (n := n + 1)).cons_cons _
    | silent v => exact (ih (n := n + 1)).cons _
    | _ => exact ih

theorem length_placeholders :
    (placeholders n ps).length + (silents ps).length = (params ps).length := by
  induction ps generalizing n with
  | nil => rfl
  | cons p ps ih =>
    cases p with
    | value v cast =>
      have ih := @ih (n + 1)
      change (placeholders (n + 1) ps).length + 1 + _ = (params ps).length + 1
      change _ + (silents ps).length = _
      omega
    | silent v =>
      have ih := @ih (n + 1)
      change _ + ((silents ps).length + 1) = (params ps).length + 1
      change (placeholders (n + 1) ps).length + _ = _
      omega
    | _ => exact ih

/-- The placeholders are those of all parameters exactly if no parameter is silent. -/
theorem placeholders_eq_iff :
    placeholders n ps = (params ps).zipIdx (n + 1) ↔ silents ps = [] := by
  have hlength := @length_placeholders ps n
  constructor
  · intro h
    rw [h, List.length_zipIdx] at hlength
    exact List.length_eq_zero_iff.mp (by omega)
  · intro h
    refine placeholders_sublist.eq_of_length ?_
    rw [List.length_zipIdx, ← hlength, h, List.length_nil, Nat.add_zero]

end Sql

/-! ## Conditions -/

namespace Comparison

/-- The keys of the path of a comparison with an empty list. The comparison is written without the
document, so no placeholder stands for them. -/
def lostKeys (c : Comparison) : List String :=
  match c.operator, c.operand with
  | .isIn, .plain (.arr []) | .notIn, .plain (.arr []) => c.path.documentPath
  | _, _ => []

variable {c : Comparison} {column : ColumnRef} {sql : Sql}

theorem silents_subject : Sql.silents (c.subject column) = [] := by
  unfold subject
  split
  · rfl
  · simp [List.flatMap_map]

@[simp] theorem silent?_parameter {inside : Bool} {cast : Option String} {v : Document} :
    (parameter inside cast v).silent? = none := by
  unfold parameter
  split <;> rfl

theorem silents_emptyList {truth : String} :
    Sql.silents (c.emptyList truth) = c.path.documentPath.map .str := by
  simp [emptyList, Function.comp_def, Piece.silent?, List.filterMap_eq_map']

theorem lostKeys_of_cast {literal type : String} (h : c.operand = .cast literal type) :
    c.lostKeys = [] := by
  unfold lostKeys
  rw [h]
  split <;> first | contradiction | rfl

theorem lostKeys_of_plain {v : Document} (h : c.operand = .plain v)
    (hin : c.operator = .isIn → v ≠ .arr []) (hnotIn : c.operator = .notIn → v ≠ .arr []) :
    c.lostKeys = [] := by
  unfold lostKeys
  rw [h]
  split
  · rename_i hop hv
    cases hv
    exact absurd rfl (hin hop)
  · rename_i hop hv
    cases hv
    exact absurd rfl (hnotIn hop)
  · rfl

@[simp] theorem silent?_bound {v : Document} : (c.bound v).silent? = none := silent?_parameter

theorem silents_compared {right : Sql} :
    Sql.silents (c.compared column right) = Sql.silents right := by
  simp [compared, silents_subject]

/-- The parameters without a placeholder are the keys of a comparison with an empty list. -/
theorem silents_sql (h : c.sql column = .ok sql) : Sql.silents sql = c.lostKeys.map .str := by
  cases written_of_sql h with
  | cast hv => simp [silents_compared, lostKeys_of_cast hv]
  | noValues hop hv =>
    rcases hop with ⟨hop, -⟩ | ⟨hop, -⟩ <;> rw [silents_emptyList, lostKeys, hop, hv]
  | null _ hv | truth _ hv | range _ hv | pattern _ hv =>
    simp [silents_compared, lostKeys_of_plain hv nofun nofun]
  | list _ _ hv hne =>
    have harr : Document.arr _ ≠ .arr [] := fun heq => hne (Document.arr.inj heq)
    simp [silents_compared, lostKeys_of_plain hv (fun _ => harr) fun _ => harr, List.flatMap_map]
  | value hv _ harr =>
    simp [silents_compared, lostKeys_of_plain hv (fun _ => harr []) fun _ => harr []]

end Comparison

namespace Filter

/-- The keys that the comparisons of a filter lose, in order. -/
def lostKeys (f : Filter) : List String :=
  f.leaves.flatMap fun
    | .comparison c => c.lostKeys
    | _ => []

variable {s : Schema} {m : Model} {table : String} {f l : Filter} {c : Condition} {a : Sql}

theorem lostKeys_of_leaves : f.lostKeys = f.leaves.flatMap lostKeys := by
  unfold lostKeys
  rw [List.flatMap_congr fun l hl => ?_]
  have hleaf := isLeaf_of_mem hl
  cases l with
  | logical | not => exact hleaf.elim
  | _ => exact (List.append_nil _).symm

/-- An atom has the parameters without a placeholder that its leaf loses. -/
theorem silents_of_atom (h : l.Atom s m table a) : Sql.silents a = l.lostKeys.map .str := by
  cases h with
  | @comparison c _ _ _ hsql =>
    have hkeys : (comparison c).lostKeys = c.lostKeys := List.append_nil _
    rw [hkeys, Comparison.silents_sql hsql]
  | computed => rfl
  | raw => rfl

theorem silents_condition (h : f.condition s m table = .ok c) :
    Sql.silents c.sql = f.lostKeys.map .str := by
  have hatoms : List.Forall₂ (fun l a => Sql.silents a = l.lostKeys.map .str) f.leaves c.atoms :=
    (atoms_of_condition h).imp fun _ _ => silents_of_atom
  rw [Sql.silents, Condition.filterMap_sql, lostKeys_of_leaves, List.map_flatMap]
  generalize f.leaves = ls, c.atoms = as at hatoms
  induction hatoms with
  | nil => rfl
  | cons hl _ ih => rw [List.flatMap_cons, List.flatMap_cons, ih, ← hl]

theorem silents_condition? {f? : Option Filter} {c? : Option Condition}
    (h : condition? s m table f? = .ok c?) :
    c?.toList.flatMap (fun c => Sql.silents c.sql) = (f?.toList.flatMap lostKeys).map .str := by
  cases f? with
  | none =>
    cases h
    rfl
  | some f =>
    obtain ⟨c, hc, rfl⟩ := map_eq_ok.mp h
    simp [silents_condition hc]

end Filter

/-! ## Statements -/

theorem Attribute.silents_selected {m : Model} {table : String} {a : Attribute} :
    Sql.silents (a.selected m table) = [] := by
  unfold selected
  split
  · simp
  · split <;> rfl

theorem SelectItem.silents_sql {m : Model} {table : String} {item : SelectItem} {sql : Sql}
    (h : item.sql m table = .ok sql) : Sql.silents sql = [] := by
  cases item with
  | column name =>
    obtain ⟨a, -, h⟩ := bind_eq_ok.mp h
    cases h
    rw [Sql.silents, Sql.filterMap_named]
    exact Attribute.silents_selected
  | aggregate func attr output =>
    obtain ⟨a, -, h⟩ := bind_eq_ok.mp h
    cases h
    rw [Sql.silents, Sql.filterMap_named]
    split <;> rfl
  | count =>
    cases h
    rfl

namespace Join

variable {j : Join}

theorem silents_source : Sql.silents j.source = [] := by
  unfold source
  cases j.link <;> simp

/-- A join has the parameters of its condition. -/
theorem silents_sql : Sql.silents j.sql = j.filter.toList.flatMap fun c => Sql.silents c.sql := by
  unfold Join.sql on
  cases j.filter <;> simp [silents_source]

end Join

namespace Include

mutual

/-- The filters of a node and of the nodes joined below it, in the order of their joins. A separate
node has none in the statement of its parent. -/
def joinedFilters : Include → List Filter
  | ⟨_, _, _, _, filter, includes, _, _, _, separate⟩ =>
    if separate then [] else filter.toList ++ joinedFiltersAll includes

def joinedFiltersAll : List Include → List Filter
  | [] => []
  | n :: ns => joinedFilters n ++ joinedFiltersAll ns

end

/-- The filters in the statement of a separate node. -/
def filters (n : Include) : List Filter := joinedFiltersAll n.includes ++ n.filter.toList

variable {s : Schema} {m parent t : Model} {assoc : Association} {n : Include} {ns : List Include}
  {table key : String} {names : List String} {css : List Sql} {js : List Join}

theorem joinedFilters_of_separate (h : n.separate = true) : joinedFilters n = [] := by
  cases n
  exact if_pos h

theorem joinedFilters_of_joined (h : n.separate = false) :
    joinedFilters n = n.filter.toList ++ joinedFiltersAll n.includes := by
  cases n
  exact if_neg (Bool.eq_false_iff.mp h)

/-! ### Columns -/

theorem silents_ownColumns (h : ownColumns m table key names = .ok css) :
    ∀ cs ∈ css, Sql.silents cs = [] := by
  intro cs hcs
  obtain ⟨name, -, h⟩ := mem_of_mapM h hcs
  obtain ⟨a, -, h⟩ := bind_eq_ok.mp h
  cases h
  rw [Sql.silents, Sql.filterMap_named]
  exact Attribute.silents_selected

theorem silents_columns (h : columns s parent table key n = .ok css) :
    ∀ cs ∈ css, Sql.silents cs = [] := by
  induction n generalizing parent table key css with
  | node n ih =>
    cases hs : n.separate with
    | true =>
      rw [columns_of_separate hs] at h
      cases h
      nofun
    | false =>
      rw [columns_steps hs] at h
      obtain ⟨⟨assoc, m⟩, -, h⟩ := bind_eq_ok.mp h
      obtain ⟨here, hhere, h⟩ := bind_eq_ok.mp h
      obtain ⟨below, hbelow, h⟩ := bind_eq_ok.mp h
      cases h
      refine List.forall_mem_append.mpr ⟨silents_ownColumns hhere, fun cs hcs => ?_⟩
      obtain ⟨c, hc, css, hcss, hcs⟩ := exists_columns_of_mem hbelow hcs
      exact ih c hc hcss cs hcs

theorem silents_columnsAll (h : columnsAll s parent table key ns = .ok css) :
    ∀ cs ∈ css, Sql.silents cs = [] := by
  intro cs hcs
  obtain ⟨n, -, css, hcss, hcs⟩ := exists_columns_of_mem h hcs
  exact silents_columns hcss cs hcs

/-! ### Joins -/

/-- The parameters of some joins without a placeholder. -/
def silentsOf (js : List Join) : List Document := js.flatMap fun j => Sql.silents j.sql

theorem silentsOf_joinsAll_of (H : ∀ n ∈ ns, ∀ {js : List Join}, joins s m table n = .ok js →
      silentsOf js = ((joinedFilters n).flatMap Filter.lostKeys).map .str)
    (h : joinsAll s m table ns = .ok js) :
    silentsOf js = ((joinedFiltersAll ns).flatMap Filter.lostKeys).map .str := by
  induction ns generalizing js with
  | nil =>
    cases h
    rfl
  | cons n ns ih =>
    obtain ⟨here, rest, hhere, hrest, rfl⟩ := joinsAll_cons_eq_ok h
    rw [List.forall_mem_cons] at H
    rw [joinedFiltersAll, List.flatMap_append, List.map_append, ← H.1 hhere, ← ih H.2 hrest]
    exact List.flatMap_append

theorem silentsOf_joins (h : joins s parent table n = .ok js) :
    silentsOf js = ((joinedFilters n).flatMap Filter.lostKeys).map .str := by
  induction n generalizing parent table js with
  | node n ih =>
    cases hs : n.separate with
    | true =>
      rw [joins_of_separate hs] at h
      cases h
      rw [joinedFilters_of_separate hs]
      rfl
    | false =>
      rw [joins_steps hs] at h
      obtain ⟨⟨assoc, m⟩, -, h⟩ := bind_eq_ok.mp h
      obtain ⟨condition, hcondition, h⟩ := bind_eq_ok.mp h
      obtain ⟨below, hbelow, h⟩ := bind_eq_ok.mp h
      cases h
      have hown := Filter.silents_condition? hcondition
      have hrest := silentsOf_joinsAll_of (fun c hc _ h => ih c hc h) hbelow
      rw [joinedFilters_of_joined hs, List.flatMap_append, List.map_append, ← hown, ← hrest,
        silentsOf, List.flatMap_cons, Join.silents_sql, Join.filter_joinOf, silentsOf]

/-- The parameters without a placeholder in joins are the keys that the filters of their nodes
lose. -/
theorem silentsOf_joinsAll (h : joinsAll s m table ns = .ok js) :
    silentsOf js = ((joinedFiltersAll ns).flatMap Filter.lostKeys).map .str :=
  silentsOf_joinsAll_of (fun _ _ _ => silentsOf_joins) h

end Include

/-! ### Selects and batches -/

/-- The filters in the statement of a plan. -/
def Plan.filters (p : Plan) : List Filter := Include.joinedFiltersAll p.includes ++ p.filter.toList

namespace Select

variable {q : Select}

/-- The parameters of a select without a placeholder are those of its joins and its condition. -/
theorem silents_sql (hcolumns : ∀ cs ∈ q.columns, Sql.silents cs = [])
    (horder : ∀ ps ∈ q.order, Sql.silents ps = []) : Sql.silents q.sql =
      Include.silentsOf q.joins ++ q.condition.toList.flatMap fun c => Sql.silents c.sql := by
  have hfrom : Sql.silents (q.joins.flatMap (·.sql)) = Include.silentsOf q.joins :=
    List.filterMap_flatMap
  have hcolumns : q.columns.flatMap (List.filterMap Piece.silent?) = [] :=
    List.flatMap_eq_nil_iff.mpr hcolumns
  have hgroup : (q.group.map fun c => [c.piece]).flatMap (List.filterMap Piece.silent?) = [] := by
    simp
  have horder : q.order.flatMap (List.filterMap Piece.silent?) = [] :=
    List.flatMap_eq_nil_iff.mpr horder
  unfold Select.sql
  cases q.condition <;> simp [hfrom, hcolumns, hgroup, horder]

end Select

theorem OrderEntry.silents_sql {table : String} {e : OrderEntry} :
    Sql.silents (e.sql table) = [] := by
  unfold OrderEntry.sql
  cases e.target <;> rfl

namespace Batch

variable {b : Batch}

theorem silents_correlation : Sql.silents b.correlation = [] := by
  unfold correlation
  split
  · rfl
  · simp [List.flatMap_map]

theorem silents_source : Sql.silents b.source = [] := by
  unfold source
  cases b.link <;> simp

/-- The parameters of a batch without a placeholder are those of its joins and its condition. -/
theorem silents_sql (hcolumns : ∀ cs ∈ b.columns, Sql.silents cs = []) : Sql.silents b.sql =
    Include.silentsOf b.joins ++ b.filter.toList.flatMap fun c => Sql.silents c.sql := by
  have hfrom : Sql.silents (b.joins.flatMap (·.sql)) = Include.silentsOf b.joins :=
    List.filterMap_flatMap
  have hcondition : Sql.silents b.condition =
      b.filter.toList.flatMap fun c => Sql.silents c.sql := by
    unfold condition
    cases b.filter <;> simp [silents_correlation]
  have hrows : Sql.silents b.rows =
      Include.silentsOf b.joins ++ b.filter.toList.flatMap fun c => Sql.silents c.sql := by
    unfold rows
    cases b.page <;>
      simpa [rowNumber, silents_source, hfrom, hcondition] using hcolumns
  unfold Batch.sql
  split
  · exact hrows
  · split <;> simp [hrows]

end Batch

/-- The parameters without a placeholder in the statement of a plan are the keys that its filters
lose. -/
theorem Plan.silents_select {s : Schema} {p : Plan} {q : Select} (h : p.select s = .ok q) :
    Sql.silents q.sql = (p.filters.flatMap Filter.lostKeys).map .str := by
  rw [select_steps] at h
  obtain ⟨m, -, h⟩ := bind_eq_ok.mp h
  obtain ⟨items, hitems, h⟩ := bind_eq_ok.mp h
  obtain ⟨below, hbelow, h⟩ := bind_eq_ok.mp h
  obtain ⟨joins, hjoins, h⟩ := bind_eq_ok.mp h
  obtain ⟨condition, hcondition, h⟩ := bind_eq_ok.mp h
  cases h
  rw [Select.silents_sql, filters, List.flatMap_append, List.map_append,
    ← Include.silentsOf_joinsAll hjoins, ← Filter.silents_condition? hcondition]
  · intro cs hcs
    rcases List.mem_append.mp hcs with hcs | hcs
    · obtain ⟨item, -, hitem⟩ := mem_of_mapM hitems hcs
      exact SelectItem.silents_sql hitem
    · split at hbelow
      · cases hbelow
        cases hcs
      · exact Include.silents_columnsAll hbelow cs hcs
  · intro ps hps
    dsimp only at hps
    split at hps
    · cases hps
    · obtain ⟨e, -, rfl⟩ := List.mem_map.mp hps
      exact OrderEntry.silents_sql

/-- The parameters without a placeholder in the statement of a separate node are the keys that its
filters lose. -/
theorem Include.silents_batch {s : Schema} {parent : Model} {n : Include} {keys : List Document}
    {b : Batch} (h : n.batch s parent keys = .ok b) :
    Sql.silents b.sql = (n.filters.flatMap Filter.lostKeys).map .str := by
  rw [batch_steps] at h
  obtain ⟨⟨assoc, m⟩, -, h⟩ := bind_eq_ok.mp h
  obtain ⟨items, hitems, h⟩ := bind_eq_ok.mp h
  obtain ⟨below, hbelow, h⟩ := bind_eq_ok.mp h
  obtain ⟨joins, hjoins, h⟩ := bind_eq_ok.mp h
  obtain ⟨filter, hfilter, h⟩ := bind_eq_ok.mp h
  obtain ⟨page, -, h⟩ := bind_eq_ok.mp h
  cases h
  rw [Batch.silents_sql, filters, List.flatMap_append, List.map_append,
    ← silentsOf_joinsAll hjoins, ← Filter.silents_condition? hfilter]
  intro cs hcs
  rcases List.mem_append.mp hcs with hcs | hcs
  · obtain ⟨name, -, hitem⟩ := mem_of_mapM hitems hcs
    exact SelectItem.silents_sql hitem
  · exact silents_columnsAll hbelow cs hcs

/-! ## Numbered parameters -/

/-- A statement whose parameters have placeholders: its text is written with tokens, and the
placeholders among them stand for the parameters in order, for each one at most once. They stand for
all of them unless a filter loses keys. -/
structure Sql.Numbered (filters : List Filter) (ps : Sql) : Prop where
  text : ps.statement.text = String.join ((ps.tokens 0).map (·.text))
  sublist : (ps.placeholders 0).Sublist (ps.statement.params.zipIdx 1)
  all : ps.placeholders 0 = ps.statement.params.zipIdx 1 ↔ filters.flatMap Filter.lostKeys = []

theorem Sql.numbered_of_silents {filters : List Filter} {ps : Sql}
    (h : ps.silents = (filters.flatMap Filter.lostKeys).map .str) : ps.Numbered filters where
  text := write_eq_tokens
  sublist := placeholders_sublist
  all := by
    rw [← List.map_eq_nil_iff (f := Document.str), ← h]
    exact placeholders_eq_iff

/-- In every statement the placeholders are numbered as they are read, and stand for the parameters
in this order. There is one for each parameter exactly if no filter of the statement compares a
value inside a document with an empty list. -/
theorem Schema.statements_numbered (s : Schema) :
    (∀ p st, Plan.statement s p = .ok st → ∃ q, p.select s = .ok q ∧ st = q.sql.statement ∧
      q.sql.Numbered p.filters) ∧
    ∀ parent n keys st, Include.batchStatement s parent n keys = .ok st → ∃ b,
      n.batch s parent keys = .ok b ∧ st = b.sql.statement ∧ b.sql.Numbered n.filters := by
  constructor
  · intro p st h
    obtain ⟨q, hq, h⟩ := bind_eq_ok.mp h
    cases h
    exact ⟨q, hq, rfl, Sql.numbered_of_silents (Plan.silents_select hq)⟩
  · intro parent n keys st h
    obtain ⟨b, hb, h⟩ := bind_eq_ok.mp h
    cases h
    exact ⟨b, hb, rfl, Sql.numbered_of_silents (Include.silents_batch hb)⟩

/-! ### Parcels by their contents -/

def parcels : Config where
  models := [{
    name := "Parcel"
    attributes := [{ name := "id", type := "INTEGER", primaryKey := true },
      { name := "contents", type := "JSONB" }] }]

def parcelSchema : Schema := ⟨parcels.models.map (·.resolve), parcels.options⟩

theorem build_parcels : Schema.build parcels = .ok parcelSchema := by decide

/-- A list of parcels, with a filter that is a variable. -/
def parcelList : Field where
  name := "list"
  arguments := [("query", .object [("where", .var "condition")])]
  selections := [.field "id" none [] []]

def parcelPlan (f : Filter) : Plan where
  model := "Parcel"
  attributes := [.column "id"]
  filter := some f

def giftComparison (op : Operator) (v : Document) : Filter :=
  .comparison ⟨⟨[], "contents", ["gift"]⟩, op, .plain v, none, false⟩

/-- The parcels with a book as a gift. -/
def bookGift : Document := .obj [("contents", .obj [("gift", .str "book")])]

/-- The parcels whose gift is one of no values. -/
def noGift : Document := .obj [("contents", .obj [("gift", .arr [])])]

theorem rootList_parcels {fields : Fields} {op : Operator} {v : Document}
    (h : Filter.compile parcelSchema "Parcel" (.obj fields) = .ok (giftComparison op v)) :
    Query.rootList parcelSchema "Parcel" parcelList { bindings := [("condition", .obj fields)] } =
      .ok (parcelPlan (giftComparison op v)) := by
  change (do
    let fs ← (fun f => [f]) <$> Filter.compile parcelSchema "Parcel" (.obj fields)
    Plan.compose parcelSchema ⟨"Parcel", ["id"], ["id"], []⟩ (Filter.all (fs ++ [])).proper?
      { filter := some (.obj fields) }) = _
  rw [h]
  rfl

theorem compile_bookGift : Filter.compile parcelSchema "Parcel" bookGift =
    .ok (giftComparison .eq (.str "book")) := by
  simp only [bookGift, Filter.compile, Filter.compileValue, Filter.compileFields]
  rfl

theorem compile_noGift : Filter.compile parcelSchema "Parcel" noGift =
    .ok (giftComparison .isIn (.arr [])) := by
  simp only [noGift, Filter.compile, Filter.compileValue, Filter.compileFields]
  rfl

/-- The key of the document and the text that is looked for have the first two placeholders; so
have the key of the parent and the country in the statement that reads the customers of an order. -/
theorem bookGift_numbered : Schema.build parcels = .ok parcelSchema ∧
    (∃ p q, Query.rootList parcelSchema "Parcel" parcelList
        { bindings := [("condition", bookGift)] } = .ok p ∧
      p.select parcelSchema = .ok q ∧ q.sql.Numbered p.filters ∧
      q.sql.placeholders 0 = [(.str "gift", 1), (.str "book", 2)]) ∧
    ∃ b, (customerNode countryIs []).batch shopSchema orderModel [.str "7"] = .ok b ∧
      b.sql.Numbered (customerNode countryIs []).filters ∧
      b.sql.placeholders 0 = [(.str "7", 1), (.str "NZ", 2)] := by
  obtain ⟨q, hq, -, hplan⟩ := (Schema.statements_numbered parcelSchema).1
    (parcelPlan (giftComparison .eq (.str "book"))) _ rfl
  obtain ⟨b, hb, -, hnode⟩ := (Schema.statements_numbered shopSchema).2 orderModel
    (customerNode countryIs []) [.str "7"] _ rfl
  cases hq
  cases hb
  exact ⟨build_parcels, ⟨_, _, rootList_parcels compile_bookGift, rfl, hplan, rfl⟩, _, rfl, hnode,
    rfl⟩

/-- The key of the document is a parameter, and nothing in the statement refers to it. -/
theorem noGift_not_numbered : Schema.build parcels = .ok parcelSchema ∧
    ∃ p q, Query.rootList parcelSchema "Parcel" parcelList
        { bindings := [("condition", noGift)] } = .ok p ∧
      p.select parcelSchema = .ok q ∧ p.statement parcelSchema = .ok q.sql.statement ∧
      q.sql.statement.params = [.str "gift"] ∧ q.sql.placeholders 0 = [] :=
  ⟨build_parcels, _, _, rootList_parcels compile_noGift, rfl, rfl, rfl, rfl⟩

end RelQuery

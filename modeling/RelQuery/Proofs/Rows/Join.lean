import RelQuery.Proofs.Plan.Scope
import RelQuery.Proofs.Rows.Merge
import RelQuery.Proofs.Schema.Sound

/-!
# Rows of a join

A row with rows joined to it is read as flat rows: each chooses one joined row for every node, or
none where there is none, and has a column for every attribute of every node. The columns go by the
names that the statement of a plan gives them, and nesting them gives the choice again.
-/

namespace RelQuery.Rows

/-- A row, and the rows joined to it by the name of their association. -/
inductive Nested
  | row (value : String → Document) (joined : String → List Nested)

namespace Nested

def value : Nested → String → Document
  | row value _ => value

def joined : Nested → String → List Nested
  | row _ joined => joined

end Nested

/-- A row, and at most one row joined to it for each association. -/
inductive Chosen
  | row (value : String → Document) (below : String → Option Chosen)

/-- The columns of a joined row; all are null if there is none. -/
def valueOf : Option Chosen → String → Document
  | some (.row value _) => value
  | none => fun _ => .null

def belowOf : Option Chosen → String → Option Chosen
  | some (.row _ below) => below
  | none => fun _ => none

mutual

/-- What can be chosen for a node: one of its rows, with a choice for every node below it. -/
def choices : Include → Nested → List (Option Chosen)
  | ⟨_, name, _, _, _, includes, _, _, _, _⟩, r =>
    match r.joined name with
    | [] => [none]
    | children =>
      children.flatMap fun child => (choicesAll includes child).map fun below =>
        some (.row child.value below)

/-- What can be chosen for several nodes: every choice for one goes with every choice for others. -/
def choicesAll : List Include → Nested → List (String → Option Chosen)
  | [], _ => [fun _ => none]
  | n :: ns, r =>
    (choices n r).flatMap fun child => (choicesAll ns r).map fun below name =>
      if name = n.name then child else below name

end

mutual

/-- The columns of a node by their paths from it. -/
def leaves : Include → Option Chosen → List (List String × Document)
  | ⟨_, _, _, attributes, _, includes, _, _, _, _⟩, child =>
    attributes.map (fun a => ([a], valueOf child a)) ++ leavesAll includes (belowOf child)

def leavesAll : List Include → (String → Option Chosen) → List (List String × Document)
  | [], _ => []
  | n :: ns, below =>
    (leaves n (below n.name)).map (fun e => (n.name :: e.1, e.2)) ++ leavesAll ns below

end

/-- The name of the column at the end of a path. -/
def columnOf : List String → String
  | [] => ""
  | [name] => name
  | name :: path => name ++ "." ++ columnOf path

/-- The flat row of one choice. -/
def joinRow (attributes : List String) (nodes : List Include) (value : String → Document)
    (below : String → Option Chosen) : Row :=
  (attributes.map (fun a => ([a], value a)) ++ leavesAll nodes below).map fun e =>
    (columnOf e.1, e.2)

/-- The flat rows that a join gives for one base row. -/
def joinRows (attributes : List String) (nodes : List Include) (r : Nested) : List Row :=
  (choicesAll nodes r).map (joinRow attributes nodes r.value)

/-! ## Joined includes -/

/-- Attributes of `m` as a statement selects them: each once, and no name holds a point. -/
structure Selected (m : Model) (attributes : List String) : Prop where
  nodup : attributes.Nodup
  subset : ∀ a ∈ attributes, a ∈ m.attributeNames
  noPoint : ∀ a ∈ attributes, '.' ∉ a.toList

/-- A node of joined includes below `m`: it and those below it follow the schema, siblings have
distinct names, and no name holds a point. -/
inductive JoinTree (s : Schema) : Model → Include → Prop
  | node {m t : Model} {assoc : Association} {n : Include} :
      s.follow m n.name = .ok (assoc, t) → n.target = t.name → n.kind = assoc.kind →
      n.separate = false → '.' ∉ n.name.toList → Selected t n.attributes →
      (n.includes.map (·.name)).Nodup → (∀ c ∈ n.includes, JoinTree s t c) → JoinTree s m n

structure JoinForest (s : Schema) (m : Model) (nodes : List Include) : Prop where
  names : (nodes.map (·.name)).Nodup
  trees : ∀ n ∈ nodes, JoinTree s m n

variable {c : Config} {s : Schema} {m t : Model} {n : Include} {nodes : List Include}
  {attributes path : List String} {value : String → Document} {child : Option Chosen}
  {below : String → Option Chosen} {e : List String × Document} {acc : Fields}

theorem JoinTree.rooted (h : JoinTree s m n) : n.Rooted s (fun _ _ => True) m := by
  induction h with
  | node hf ht hk _ _ _ hnames _ ih => exact .node hf ht hk (fun _ _ => trivial) hnames ih

theorem JoinTree.separate (h : JoinTree s m n) : n.separate = false := by
  cases h
  assumption

/-- In an accepted schema a node has not the name of a selected attribute beside it. -/
theorem JoinForest.notMem_attributes (hs : Schema.build c = .ok s) (hm : m ∈ s.models)
    (h : JoinForest s m nodes) (hselected : Selected m attributes) (hn : n ∈ nodes) :
    n.name ∉ attributes := by
  intro hmem
  obtain ⟨assoc, t, hf⟩ := (h.trees n hn).rooted.exists_follow
  exact Schema.notMem_attributeNames_of_follow hs hm hf (hselected.subset _ hmem)

/-! ## Columns -/

theorem leaves_eq : leaves n child =
    n.attributes.map (fun a => ([a], valueOf child a)) ++ leavesAll n.includes (belowOf child) := by
  cases n
  rw [leaves]

theorem mem_leavesAll : e ∈ leavesAll nodes below ↔
    ∃ n ∈ nodes, ∃ path, e.1 = n.name :: path ∧ (path, e.2) ∈ leaves n (below n.name) := by
  induction nodes with
  | nil =>
    rw [leavesAll]
    exact iff_of_false nofun nofun
  | cons n nodes ih =>
    rw [leavesAll, List.mem_append, ih, List.mem_map, List.exists_mem_cons_iff]
    refine or_congr_left ?_
    constructor
    · rintro ⟨e, he, rfl⟩
      exact ⟨e.1, rfl, he⟩
    · rintro ⟨path, hpath, he⟩
      exact ⟨(path, e.2), he, by rw [← hpath]⟩

/-- A node has no column exactly if it serves a path only. -/
theorem leaves_eq_nil_iff : leaves n child = [] ↔ isPathOnly n = true := by
  induction n generalizing child with
  | node n ih =>
    have hall : leavesAll n.includes (belowOf child) = [] ↔ allPathOnly n.includes = true := by
      rw [allPathOnly_iff, List.eq_nil_iff_forall_not_mem]
      constructor
      · intro h b hb
        have hleaves : leaves b (belowOf child b.name) = [] ↔ isPathOnly b = true := ih b hb
        rw [← hleaves, List.eq_nil_iff_forall_not_mem]
        intro e he
        exact h (b.name :: e.1, e.2) (mem_leavesAll.mpr ⟨b, hb, e.1, rfl, he⟩)
      · intro h e he
        obtain ⟨b, hb, path, -, he⟩ := mem_leavesAll.mp he
        rw [(ih b hb).mpr (h b hb)] at he
        cases he
    rw [leaves_eq, isPathOnly_eq, List.append_eq_nil_iff, List.map_eq_nil_iff, hall,
      Bool.and_eq_true, List.isEmpty_iff]

theorem ne_nil_of_mem_leaves (h : e ∈ leaves n child) : e.1 ≠ [] := by
  rw [leaves_eq, List.mem_append] at h
  rcases h with h | h
  · obtain ⟨a, -, rfl⟩ := List.mem_map.mp h
    exact List.cons_ne_nil _ _
  · obtain ⟨b, -, path, hpath, -⟩ := mem_leavesAll.mp h
    rw [hpath]
    exact List.cons_ne_nil _ _

theorem JoinTree.noPoint (h : JoinTree s m n) (he : e ∈ leaves n child) :
    ∀ part ∈ e.1, '.' ∉ part.toList := by
  induction h generalizing child e with
  | @node m t assoc n _ _ _ _ _ hselected _ htrees ih =>
    rw [leaves_eq, List.mem_append] at he
    rcases he with he | he
    · obtain ⟨a, ha, rfl⟩ := List.mem_map.mp he
      exact List.forall_mem_singleton.mpr (hselected.noPoint a ha)
    · obtain ⟨b, hb, path, hpath, he⟩ := mem_leavesAll.mp he
      rw [hpath, List.forall_mem_cons]
      refine ⟨?_, ih b hb he⟩
      cases htrees b hb
      assumption

theorem keyPath_columnOf (hne : path ≠ []) (h : ∀ part ∈ path, '.' ∉ part.toList) :
    keyPath (columnOf path) = path := by
  induction path with
  | nil => exact absurd rfl hne
  | cons name path ih =>
    rw [List.forall_mem_cons] at h
    cases path with
    | nil => exact keyPath_of_notMem h.1
    | cons next path =>
      rw [columnOf, keyPath_append h.1, ih (List.cons_ne_nil _ _) h.2]
      exact List.cons_ne_nil _ _

/-! ## Nested columns of a choice -/

mutual

/-- The columns of a node in nested objects. -/
def nested : Include → Option Chosen → Fields
  | ⟨_, _, _, attributes, _, includes, _, _, _, _⟩, child =>
    attributes.map (fun a => (a, valueOf child a)) ++ nestedAll includes (belowOf child)

def nestedAll : List Include → (String → Option Chosen) → Fields
  | [], _ => []
  | n :: ns, below =>
    (if isPathOnly n then [] else [(n.name, .obj (nested n (below n.name)))]) ++
      nestedAll ns below

end

theorem nested_eq : nested n child =
    n.attributes.map (fun a => (a, valueOf child a)) ++ nestedAll n.includes (belowOf child) := by
  cases n
  rw [nested]

theorem names_columns (attributes : List String) (value : String → Document) :
    (attributes.map fun a => (a, value a)).map (·.1) = attributes := by
  rw [List.map_map]
  exact List.map_id _

/-- The flat row of a choice with its columns in nested objects. -/
def nestedRow (attributes : List String) (nodes : List Include) (value : String → Document)
    (below : String → Option Chosen) : Row :=
  attributes.map (fun a => (a, value a)) ++ nestedAll nodes below

theorem names_nestedAll_subset : ∀ f ∈ nestedAll nodes below, f.1 ∈ nodes.map (·.name) := by
  induction nodes with
  | nil =>
    rw [nestedAll]
    exact List.forall_mem_nil _
  | cons n nodes ih =>
    rw [nestedAll, List.forall_mem_append]
    refine ⟨fun f hf => ?_, fun f hf => List.mem_cons_of_mem _ (ih f hf)⟩
    split at hf
    · cases hf
    · cases List.mem_singleton.mp hf
      exact List.mem_cons_self

theorem insertPaths_leavesAll_of
    (H : ∀ n ∈ nodes, ∀ child, insertPaths (leaves n child) [] = nested n child)
    (hnames : (nodes.map (·.name)).Nodup) (hacc : ∀ n ∈ nodes, n.name ∉ acc.map (·.1)) :
    insertPaths (leavesAll nodes below) acc = acc ++ nestedAll nodes below := by
  induction nodes generalizing acc with
  | nil =>
    rw [leavesAll, nestedAll, List.append_nil]
    rfl
  | cons n nodes ih =>
    rw [List.forall_mem_cons] at H hacc
    rw [List.map_cons, List.nodup_cons] at hnames
    rw [leavesAll, nestedAll, insertPaths_append]
    split
    · rename_i hpath
      rw [leaves_eq_nil_iff.mpr hpath]
      exact ih H.2 hnames.2 hacc.2
    · rename_i hpath
      have hne : leaves n (below n.name) ≠ [] := mt leaves_eq_nil_iff.mp hpath
      have hfresh : ∀ c ∈ nodes,
          c.name ∉ (acc ++ [(n.name, Document.obj (nested n (below n.name)))]).map (·.1) := by
        intro c hc hmem
        rw [List.map_append, List.mem_append, List.map_singleton, List.mem_singleton] at hmem
        rcases hmem with hmem | heq
        · exact hacc.2 c hc hmem
        · exact hnames.1 (List.mem_map.mpr ⟨c, hc, heq⟩)
      rw [insertPaths_below hacc.1 (fun e he => ne_nil_of_mem_leaves he) hne, H.1,
        ih H.2 hnames.2 hfresh, List.append_assoc]

theorem insertPaths_row
    (H : ∀ n ∈ nodes, ∀ child, insertPaths (leaves n child) [] = nested n child)
    (hs : Schema.build c = .ok s) (hm : m ∈ s.models) (hnodes : JoinForest s m nodes)
    (hselected : Selected m attributes) :
    insertPaths (attributes.map (fun a => ([a], value a)) ++ leavesAll nodes below) [] =
      nestedRow attributes nodes value below := by
  have hsingle : insertPaths (attributes.map (fun a => ([a], value a))) [] =
      attributes.map fun a => (a, value a) := by
    have hnodup : ((([] : Fields) ++ attributes.map fun a => (a, value a)).map (·.1)).Nodup := by
      rw [List.nil_append, names_columns]
      exact hselected.nodup
    have hfields := insertPaths_single hnodup
    rw [List.map_map] at hfields
    exact hfields
  rw [insertPaths_append, hsingle, nestedRow]
  refine insertPaths_leavesAll_of H hnodes.names fun n hn => ?_
  rw [names_columns]
  exact hnodes.notMem_attributes hs hm hselected hn

theorem JoinTree.insertPaths_leaves (hs : Schema.build c = .ok s) (h : JoinTree s m n)
    (child : Option Chosen) : insertPaths (leaves n child) [] = nested n child := by
  induction h generalizing child with
  | @node m t assoc n hf _ _ _ _ hselected hnames htrees ih =>
    rw [leaves_eq, nested_eq]
    exact insertPaths_row ih hs (Schema.mem_of_follow hf) ⟨hnames, htrees⟩ hselected

/-- Nesting takes the columns of a flat row apart again. -/
theorem nest_joinRow (hs : Schema.build c = .ok s) (hm : m ∈ s.models)
    (hnodes : JoinForest s m nodes) (hselected : Selected m attributes) :
    nest (joinRow attributes nodes value below) = nestedRow attributes nodes value below := by
  have hpaths : ∀ e ∈ attributes.map (fun a => ([a], value a)) ++ leavesAll nodes below,
      keyPath (columnOf e.1) = e.1 := by
    intro e he
    rcases List.mem_append.mp he with he | he
    · obtain ⟨a, ha, rfl⟩ := List.mem_map.mp he
      exact keyPath_of_notMem (hselected.noPoint a ha)
    · obtain ⟨n, hn, path, hpath, he⟩ := mem_leavesAll.mp he
      have htree := hnodes.trees n hn
      rw [hpath]
      refine keyPath_columnOf (List.cons_ne_nil _ _) (List.forall_mem_cons.mpr ⟨?_, htree.noPoint he⟩)
      cases htree
      assumption
  rw [nest_eq, joinRow, List.map_map, List.map_congr_left (g := id), List.map_id]
  · exact insertPaths_row (fun n hn => (hnodes.trees n hn).insertPaths_leaves hs) hs hm hnodes
      hselected
  · intro e he
    exact Prod.ext (hpaths e he) rfl

/-! ## Names in the statement -/

open Include (columnKey)

theorem columnKey_of_ne {key name : String} (h : key ≠ "") :
    columnKey key name = key ++ "." ++ name := by
  rw [columnKey, if_neg (mt String.isEmpty_iff.mp h)]

theorem columnKey_empty {name : String} : columnKey "" name = name := rfl

theorem columnKey_columnOf_pair {key name a : String} :
    columnKey key (columnOf [name, a]) = columnKey key name ++ "." ++ a := by
  by_cases hkey : key = ""
  · rw [hkey, columnKey_empty, columnKey_empty]
    rfl
  · rw [columnKey_of_ne hkey, columnKey_of_ne hkey]
    simp only [columnOf, String.append_assoc]

/-- A path that goes on has the name of its first part as prefix, if there is one. -/
theorem columnKey_columnOf_cons {key name : String} (hkey : columnKey key name ≠ "")
    (hpath : path ≠ []) :
    columnKey key (columnOf (name :: path)) = columnKey (columnKey key name) (columnOf path) := by
  obtain ⟨next, path, rfl⟩ := List.exists_cons_of_ne_nil hpath
  rw [columnKey_of_ne hkey]
  by_cases hempty : key = ""
  · rw [hempty, columnKey_empty, columnKey_empty]
    rfl
  · rw [columnKey_of_ne hempty, columnKey_of_ne hempty]
    simp only [columnOf, String.append_assoc]

theorem outputs_ownColumns {table key : String} {columns : List Sql}
    (h : Include.ownColumns t table key attributes = .ok columns) :
    columns.map (·.getLast?) = attributes.map fun a => some (.name (key ++ "." ++ a)) := by
  rw [Include.ownColumns] at h
  induction attributes generalizing columns with
  | nil => exact pure_eq_ok.mp h ▸ rfl
  | cons a attributes ih =>
    obtain ⟨column, columns, ha, hrest, rfl⟩ := mapM_cons_eq_ok.mp h
    obtain ⟨attr, -, ha⟩ := bind_eq_ok.mp ha
    cases ha
    rw [List.map_cons, List.map_cons, ih hrest, Sql.named, List.getLast?_append]
    rfl

/-- A name that is no prefix of the columns below: the statement takes columns of a node without a
name for columns of the base row. -/
def Prefixing (key : String) (n : Include) : Prop :=
  key ≠ "" ∨ n.name ≠ "" ∨ allPathOnly n.includes = true

/-- Below a key that is empty nothing is selected. -/
theorem Prefixing.pathOnly_of_empty {key : String} (h : Prefixing key n)
    (hempty : columnKey key n.name = "") : allPathOnly n.includes = true := by
  by_cases hk : key = ""
  · rw [hk, columnKey_empty] at hempty
    exact (h.resolve_left (not_not_intro hk)).resolve_left (not_not_intro hempty)
  · rw [columnKey_of_ne hk] at hempty
    have hlength := congrArg String.length hempty
    simp [String.length_append] at hlength

theorem Prefixing.under {key : String} {b : Include} (h : Prefixing key n) (hb : b ∈ n.includes) :
    Prefixing (columnKey key n.name) b := by
  by_cases hk : columnKey key n.name = ""
  · have hpath := allPathOnly_iff.mp (h.pathOnly_of_empty hk) b hb
    rw [isPathOnly_eq, Bool.and_eq_true] at hpath
    exact .inr (.inr hpath.2)
  · exact .inl hk

theorem outputs_columnsAll_of {table key : String} {columns : List Sql}
    (below : String → Option Chosen)
    (H : ∀ n ∈ nodes, ∀ columns, Include.columns s m table key n = .ok columns →
      columns.map (·.getLast?) = (leaves n (below n.name)).map fun e =>
        some (.name (columnKey key (columnOf (n.name :: e.1)))))
    (h : Include.columnsAll s m table key nodes = .ok columns) :
    columns.map (·.getLast?) =
      (leavesAll nodes below).map fun e => some (.name (columnKey key (columnOf e.1))) := by
  induction nodes generalizing columns with
  | nil =>
    cases h
    rw [leavesAll]
    rfl
  | cons n nodes ih =>
    rw [List.forall_mem_cons] at H
    obtain ⟨here, hhere, h⟩ := bind_eq_ok.mp h
    obtain ⟨rest, hrest, h⟩ := bind_eq_ok.mp h
    cases h
    rw [leavesAll, List.map_append, List.map_append, H.1 here hhere, ih H.2 hrest, List.map_map]
    rfl

theorem JoinTree.outputs_columns {table key : String} {columns : List Sql} (h : JoinTree s m n)
    (hkey : Prefixing key n) (hcolumns : Include.columns s m table key n = .ok columns) :
    columns.map (·.getLast?) = (leaves n child).map fun e =>
      some (.name (columnKey key (columnOf (n.name :: e.1)))) := by
  induction h generalizing table key columns child with
  | @node m t assoc n hf _ _ hseparate _ _ _ _ ih =>
    rw [Include.columns_steps hseparate, hf, ok_bind] at hcolumns
    obtain ⟨own, hown, hcolumns⟩ := bind_eq_ok.mp hcolumns
    obtain ⟨rest, hrest, hcolumns⟩ := bind_eq_ok.mp hcolumns
    cases hcolumns
    have hbelow := outputs_columnsAll_of (belowOf child)
      (fun b hb _ h => ih b hb (hkey.under hb) h) hrest
    rw [List.map_append, outputs_ownColumns hown, hbelow, leaves_eq, List.map_append, List.map_map]
    congr 1
    · refine List.map_congr_left fun a _ => ?_
      rw [Function.comp_apply, columnKey_columnOf_pair]
    · refine List.map_congr_left fun e he => ?_
      have hk : columnKey key n.name ≠ "" := by
        intro hk
        obtain ⟨b, hb, path, -, he⟩ := mem_leavesAll.mp he
        rw [leaves_eq_nil_iff.mpr (allPathOnly_iff.mp (hkey.pathOnly_of_empty hk) b hb)] at he
        cases he
      have hpath : e.1 ≠ [] := by
        obtain ⟨b, -, path, hpath, -⟩ := mem_leavesAll.mp he
        rw [hpath]
        exact List.cons_ne_nil _ _
      rw [columnKey_columnOf_cons hk hpath]

theorem outputs_items {table : String} {items : List Sql}
    (h : (attributes.map SelectItem.column).mapM (·.sql m table) = .ok items) :
    items.map (·.getLast?) = attributes.map fun a => some (.name a) := by
  induction attributes generalizing items with
  | nil => exact pure_eq_ok.mp h ▸ rfl
  | cons a attributes ih =>
    obtain ⟨item, items, ha, hrest, rfl⟩ := mapM_cons_eq_ok.mp h
    obtain ⟨attr, -, ha⟩ := bind_eq_ok.mp ha
    cases ha
    rw [List.map_cons, List.map_cons, ih hrest, Sql.named, List.getLast?_append]
    rfl

/-- The statement of a plan gives its columns the names that flat rows have. -/
theorem outputs_select {p : Plan} {q : Select} {row : Row} {r : Nested}
    (hm : s.model p.model = .ok m) (hnodes : JoinForest s m p.includes)
    (hnames : ∀ n ∈ p.includes, n.name ≠ "" ∨ allPathOnly n.includes = true)
    (hattributes : p.attributes = attributes.map .column) (h : p.select s = .ok q)
    (hrow : row ∈ joinRows attributes p.includes r) :
    q.columns.map (·.getLast?) = row.map fun f => some (.name f.1) := by
  rw [Plan.select_steps] at h
  obtain ⟨m', hm', h⟩ := bind_eq_ok.mp h
  cases hm.symm.trans hm'
  obtain ⟨items, hitems, h⟩ := bind_eq_ok.mp h
  obtain ⟨columns, hcolumns, h⟩ := bind_eq_ok.mp h
  obtain ⟨_, -, h⟩ := bind_eq_ok.mp h
  obtain ⟨_, -, h⟩ := bind_eq_ok.mp h
  cases h
  obtain ⟨below, -, rfl⟩ := List.mem_map.mp hrow
  have hcount : p.isCount = false := by
    rw [Plan.isCount, hattributes, ← Bool.not_eq_true, List.contains_iff_mem]
    intro hmem
    obtain ⟨_, -, heq⟩ := List.mem_map.mp hmem
    cases heq
  rw [hcount] at hcolumns
  have hbelow := outputs_columnsAll_of below (fun n hn _ h =>
    (hnodes.trees n hn).outputs_columns (.inr (hnames n hn)) h) hcolumns
  rw [List.map_append, outputs_items (hattributes ▸ hitems), hbelow, joinRow, List.map_map,
    List.map_append, List.map_map]
  rfl

end RelQuery.Rows

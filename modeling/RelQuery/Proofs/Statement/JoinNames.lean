import RelQuery.Proofs.Include.Forest
import RelQuery.Proofs.Statement.LookBack
import RelQuery.Proofs.Statement.Parts

/-!
# The names of joined tables

A table of a statement goes by the path to it, and a link table by the path of its model with
`through` at the end. Where the names of associations hold no arrow, the name of a table tells its
path, so tables have one name only if they have one path; and paths meet only where a node with a
link table joins an association called `through`.
-/

namespace RelQuery

/-! ## Paths and names -/

/-- A name in which a path does not appear to go on. -/
def ArrowFree (name : String) : Prop := ¬['-', '>'] <:+: name.toList

theorem arrowFree_of_notMem {name : String} (h : '-' ∉ name.toList) : ArrowFree name :=
  fun harrow => h (harrow.subset List.mem_cons_self)

theorem arrowFree_through : ArrowFree "through" := arrowFree_of_notMem (by decide)

/-- The text of the hops of a path, each behind an arrow. -/
def arrowText (hops : List String) : List Char :=
  hops.flatMap fun hop => '-' :: '>' :: hop.toList

variable {base hop : String} {hops ks : List String}

theorem toList_joinName : (joinName base hops).toList = base.toList ++ arrowText hops := by
  induction hops generalizing base with
  | nil => exact (List.append_nil _).symm
  | cons hop hops ih =>
    have hone : joinName base [hop] = base ++ "->" ++ hop := rfl
    change (joinName (joinName base [hop]) hops).toList = _
    simp [ih, hone, arrowText]

/-- What follows a hop begins at an arrow: no hop of another path reaches over it. -/
theorem eq_nil_of_arrowText {front back : List Char} (hhop : ArrowFree hop)
    (hsplit : hop.toList = front ++ back) (h : arrowText hops = back ++ arrowText ks) :
    back = [] := by
  rcases back with _ | ⟨c, back⟩
  · rfl
  · obtain _ | ⟨k, hops⟩ := hops
    · cases h
    · obtain ⟨hc, h⟩ := List.cons.inj h
      -- an arrow that begins inside the hop ends there too, as the next hop begins with `-`
      rcases back with _ | ⟨d, back⟩
      · obtain _ | ⟨k', ks⟩ := ks <;> cases h
      · obtain ⟨hd, -⟩ := List.cons.inj h
        exact (hhop ⟨front, back, by simp [hsplit, ← hc, ← hd]⟩).elim

theorem arrowText_injective (hhops : ∀ hop ∈ hops, ArrowFree hop) (hks : ∀ hop ∈ ks, ArrowFree hop)
    (h : arrowText hops = arrowText ks) : hops = ks := by
  induction hops generalizing ks with
  | nil =>
    cases ks with
    | nil => rfl
    | cons => cases h
  | cons hop hops ih =>
    rcases ks with _ | ⟨k, ks⟩
    · cases h
    · rw [List.forall_mem_cons] at hhops hks
      have h : ['-', '>'] ++ (hop.toList ++ arrowText hops) =
          ['-', '>'] ++ (k.toList ++ arrowText ks) := h
      have h := List.append_cancel_left h
      have hname : hop.toList = k.toList ∧ arrowText hops = arrowText ks := by
        rcases List.append_eq_append_iff.mp h with ⟨back, hk, hb⟩ | ⟨back, hk, hb⟩
        · cases eq_nil_of_arrowText hks.1 hk hb
          exact ⟨by simpa using hk.symm, hb⟩
        · cases eq_nil_of_arrowText hhops.1 hk hb
          exact ⟨by simpa using hk, hb.symm⟩
      rw [String.toList_inj.mp hname.1, ih hhops.2 hks.2 hname.2]

/-- Below one table, different paths of names without an arrow give different names. -/
theorem joinName_inj (hhops : ∀ hop ∈ hops, ArrowFree hop) (hks : ∀ hop ∈ ks, ArrowFree hop) :
    joinName base hops = joinName base ks ↔ hops = ks := by
  refine ⟨fun h => arrowText_injective hhops hks ?_, congrArg _⟩
  have h := congrArg String.toList h
  rw [toList_joinName, toList_joinName] at h
  exact List.append_cancel_left h

theorem nodup_map_joinName {paths : List (List String)}
    (h : ∀ path ∈ paths, ∀ hop ∈ path, ArrowFree hop) :
    (paths.map (joinName base)).Nodup ↔ paths.Nodup :=
  ⟨.of_map _, .map_on fun _ hx _ hy heq => (joinName_inj (h _ hx) (h _ hy)).mp heq⟩

/-! ## Paths of tables -/

/-- The names of the tables that the FROM clause of a statement introduces, link tables too. -/
def Select.names (q : Select) : List String := q.name :: q.joins.flatMap Join.names

/-- The names of the tables that the FROM clause of a separate include introduces. -/
def Batch.names (b : Batch) : List String :=
  b.name :: (b.link.map fun link => link.2.1).toList ++ b.joins.flatMap Join.names

/-- The paths from a model to its tables: none to its own, one to its link table, and those to the
tables below it. -/
def rootPaths (linked : Bool) (below : List (List String)) : List (List String) :=
  [] :: (if linked then [["through"]] else []) ++ below

variable {linked : Bool} {below : List (List String)} {path : List String}

theorem nil_mem_rootPaths : [] ∈ rootPaths linked below := List.mem_cons_self

theorem mem_rootPaths (h : path ∈ rootPaths linked below) :
    path = [] ∨ path = ["through"] ∨ path ∈ below := by
  cases linked with
  | true => simpa [rootPaths] using h
  | false => exact (List.mem_cons.mp h).imp_right .inr

theorem arrowFree_rootPaths (h : ∀ path ∈ below, ∀ hop ∈ path, ArrowFree hop) :
    ∀ path ∈ rootPaths linked below, ∀ hop ∈ path, ArrowFree hop := by
  intro path hpath
  rcases mem_rootPaths hpath with rfl | rfl | hpath
  · exact nofun
  · exact List.forall_mem_singleton.mpr arrowFree_through
  · exact h path hpath

theorem map_rootPaths {α : Type} {link? : Option α} {table : String} :
    (rootPaths link?.isSome below).map (joinName table) =
      table :: (link?.map fun _ => linkName table).toList ++ below.map (joinName table) := by
  have hself : joinName table [] = table := rfl
  cases link? <;> simp [rootPaths, linkName, hself]

theorem nodup_rootPaths (hnil : [] ∉ below) :
    (rootPaths linked below).Nodup ↔ (linked = true → ["through"] ∉ below) ∧ below.Nodup := by
  cases linked <;> simp [rootPaths, hnil]

namespace Include

mutual

/-- The paths from `parent` to the tables that a node joins, and to those of all joined nodes below
it. -/
def tablePaths (s : Schema) (parent : Model) : Include → List (List String)
  | ⟨_, name, _, _, _, includes, _, _, _, separate⟩ =>
    if separate then []
    else
      match s.follow parent name with
      | .ok (assoc, m) =>
        (rootPaths assoc.usedLink?.isSome (tablePathsAll s m includes)).map (name :: ·)
      | .error _ => []

def tablePathsAll (s : Schema) (parent : Model) : List Include → List (List String)
  | [] => []
  | n :: ns => tablePaths s parent n ++ tablePathsAll s parent ns

end

variable {s : Schema} {Q : Model → Filter → Prop} {m t parent : Model} {assoc : Association}
  {n : Include} {ns : List Include} {table : String} {js : List Join}

theorem tablePathsAll_eq_flatMap : tablePathsAll s m ns = ns.flatMap (tablePaths s m) := by
  induction ns with
  | nil => rfl
  | cons n ns ih => rw [tablePathsAll, ih, List.flatMap_cons]

theorem mem_tablePathsAll : path ∈ tablePathsAll s m ns ↔ ∃ n ∈ ns, path ∈ tablePaths s m n := by
  rw [tablePathsAll_eq_flatMap, List.mem_flatMap]

theorem tablePaths_of_separate (hs : n.separate = true) : tablePaths s m n = [] := by
  cases n
  exact if_pos hs

theorem tablePaths_of_joined (hs : n.separate = false) (hf : s.follow m n.name = .ok (assoc, t)) :
    tablePaths s m n =
      (rootPaths assoc.usedLink?.isSome (tablePathsAll s t n.includes)).map (n.name :: ·) := by
  cases n
  simp only at hs hf
  simp [tablePaths, hs, hf]

/-- The paths of a node begin with its name. -/
theorem exists_cons_of_mem_tablePaths (h : path ∈ tablePaths s m n) :
    n.separate = false ∧ ∃ rest, path = n.name :: rest := by
  cases hs : n.separate with
  | true =>
    rw [tablePaths_of_separate hs] at h
    cases h
  | false =>
    refine ⟨rfl, ?_⟩
    cases hf : s.follow m n.name with
    | error e =>
      cases n
      simp only at hs hf
      simp [tablePaths, hs, hf] at h
    | ok step =>
      rw [tablePaths_of_joined hs hf] at h
      obtain ⟨rest, -, rfl⟩ := List.mem_map.mp h
      exact ⟨rest, rfl⟩

theorem nil_notMem_tablePathsAll : [] ∉ tablePathsAll s m ns := by
  rw [mem_tablePathsAll]
  rintro ⟨n, -, h⟩
  obtain ⟨-, rest, h⟩ := exists_cons_of_mem_tablePaths h
  cases h

theorem names_joinOf {required : Bool} {condition : Option Condition} :
    (joinOf assoc parent t table required condition).names =
      (rootPaths assoc.usedLink?.isSome []).map (joinName (joinName table [assoc.name])) := by
  rw [map_rootPaths]
  unfold joinOf Join.names
  cases assoc.usedLink? <;> rfl

theorem names_joinsAll_of
    (H : ∀ n ∈ ns, ∀ {js}, joins s m table n = .ok js →
      js.flatMap Join.names = (tablePaths s m n).map (joinName table))
    (h : joinsAll s m table ns = .ok js) :
    js.flatMap Join.names = (tablePathsAll s m ns).map (joinName table) := by
  induction ns generalizing js with
  | nil =>
    cases h
    rfl
  | cons n ns ih =>
    obtain ⟨here, hhere, h⟩ := bind_eq_ok.mp h
    obtain ⟨rest, hrest, h⟩ := bind_eq_ok.mp h
    cases h
    rw [List.forall_mem_cons] at H
    rw [tablePathsAll, List.map_append, List.flatMap_append, H.1 hhere, ih H.2 hrest]

/-- The joins of a node introduce the tables at its paths. -/
theorem names_joins (hn : n.Rooted s Q m) (h : joins s m table n = .ok js) :
    js.flatMap Join.names = (tablePaths s m n).map (joinName table) := by
  induction hn generalizing table js with
  | @node m t assoc n hf _ _ _ _ _ ih =>
    cases hs : n.separate with
    | true =>
      cases (joins_of_separate hs).symm.trans h
      rw [tablePaths_of_separate hs]
      rfl
    | false =>
      obtain ⟨condition, below, -, hbelow, rfl⟩ := joins_eq_ok h hs hf
      have hbelow := names_joinsAll_of (fun c hc _ h => ih c hc h) hbelow
      have happend : rootPaths assoc.usedLink?.isSome (tablePathsAll s t n.includes) =
          rootPaths assoc.usedLink?.isSome [] ++ tablePathsAll s t n.includes := by
        simp [rootPaths]
      rw [tablePaths_of_joined hs hf, List.flatMap_cons, names_joinOf, hbelow,
        Schema.name_of_follow hf, happend, ← List.map_append, List.map_map]
      rfl

/-- The joins of nodes introduce the tables at their paths. -/
theorem Forest.names_joinsAll (hns : Forest s Q m ns) (h : joinsAll s m table ns = .ok js) :
    js.flatMap Join.names = (tablePathsAll s m ns).map (joinName table) :=
  names_joinsAll_of (fun n hn _ h => names_joins (hns.rooted n hn) h) h

/-! ## Where paths meet -/

/-- A node that the statement on a model joins, with the association that it stands for. -/
inductive JoinedBelow (s : Schema) : Model → List Include → Association → Include → Prop
  | here {m t : Model} {ns : List Include} {n : Include} {assoc : Association} :
      n ∈ ns → n.separate = false → s.follow m n.name = .ok (assoc, t) →
      JoinedBelow s m ns assoc n
  | under {m t : Model} {ns : List Include} {c n : Include} {hop assoc : Association} :
      c ∈ ns → c.separate = false → s.follow m c.name = .ok (hop, t) →
      JoinedBelow s t c.includes assoc n → JoinedBelow s m ns assoc n

/-- The link table of a node, if there is one, does not have the path of a node joined below it. -/
def LinkApart (assoc : Association) (n : Include) : Prop :=
  assoc.usedLink?.isSome = true → ∀ c ∈ n.includes, c.separate = false → c.name ≠ "through"

/-- No joined node has a link table on the path of another node. -/
def Apart (s : Schema) (m : Model) (ns : List Include) : Prop :=
  ∀ assoc n, JoinedBelow s m ns assoc n → LinkApart assoc n

/-- What `Apart` says of one node and of those below it. -/
def ApartFrom (s : Schema) (m : Model) (n : Include) : Prop :=
  n.separate = false → ∀ assoc t, s.follow m n.name = .ok (assoc, t) →
    LinkApart assoc n ∧ Apart s t n.includes

theorem apart_iff : Apart s m ns ↔ ∀ n ∈ ns, ApartFrom s m n := by
  constructor
  · intro h n hn hs assoc t hf
    exact ⟨h assoc n (.here hn hs hf), fun assoc' c hc => h assoc' c (.under hn hs hf hc)⟩
  · intro h assoc n hn
    cases hn with
    | here hn hs hf => exact (h n hn hs _ _ hf).1
    | under hc hs hf hn => exact (h _ hc hs _ _ hf).2 assoc n hn

theorem through_mem_tablePathsAll (hns : Forest s Q m ns) : ["through"] ∈ tablePathsAll s m ns ↔
    ∃ c ∈ ns, c.separate = false ∧ c.name = "through" := by
  rw [mem_tablePathsAll]
  constructor
  · rintro ⟨c, hc, h⟩
    obtain ⟨hs, rest, hpath⟩ := exists_cons_of_mem_tablePaths h
    exact ⟨c, hc, hs, (List.cons.inj hpath).1.symm⟩
  · rintro ⟨c, hc, hs, hname⟩
    obtain ⟨assoc, t, hf⟩ := (hns.rooted c hc).exists_follow
    refine ⟨c, hc, ?_⟩
    rw [tablePaths_of_joined hs hf, ← hname]
    exact List.mem_map_of_mem nil_mem_rootPaths

theorem nodup_rootPaths_iff (hns : Forest s Q t n.includes) :
    (rootPaths assoc.usedLink?.isSome (tablePathsAll s t n.includes)).Nodup ↔
      LinkApart assoc n ∧ (tablePathsAll s t n.includes).Nodup := by
  rw [nodup_rootPaths nil_notMem_tablePathsAll, through_mem_tablePathsAll hns]
  simp [LinkApart]

/-- Siblings share no path. -/
theorem nodup_tablePathsAll (hnames : (ns.map (·.name)).Nodup) :
    (tablePathsAll s m ns).Nodup ↔ ∀ n ∈ ns, (tablePaths s m n).Nodup := by
  rw [tablePathsAll_eq_flatMap, List.nodup_flatMap, and_iff_left_iff_imp]
  intro _
  refine (List.pairwise_map.mp hnames).imp fun {a b} hne path ha hb => hne ?_
  obtain ⟨-, rest, rfl⟩ := exists_cons_of_mem_tablePaths ha
  obtain ⟨-, rest', h⟩ := exists_cons_of_mem_tablePaths hb
  exact (List.cons.inj h).1

theorem Rooted.nodup_tablePaths (hn : n.Rooted s Q m) :
    (tablePaths s m n).Nodup ↔ ApartFrom s m n := by
  induction hn with
  | @node m t assoc n hf ht hk hfilter hnames hi ih =>
    cases hs : n.separate with
    | true => simp [tablePaths_of_separate hs, ApartFrom, hs]
    | false =>
      have hbelow : (tablePathsAll s t n.includes).Nodup ↔ Apart s t n.includes :=
        (nodup_tablePathsAll hnames).trans ((forall₂_congr ih).trans apart_iff.symm)
      have hcons : ((rootPaths assoc.usedLink?.isSome (tablePathsAll s t n.includes)).map
          (n.name :: ·)).Nodup ↔
          (rootPaths assoc.usedLink?.isSome (tablePathsAll s t n.includes)).Nodup :=
        List.nodup_map_iff List.cons_injective
      rw [tablePaths_of_joined hs hf, hcons, nodup_rootPaths_iff ⟨hnames, hi⟩, hbelow]
      refine ⟨fun h _ assoc' t' hf' => ?_, fun h => h hs assoc t hf⟩
      cases hf.symm.trans hf'
      exact h

theorem Forest.nodup_tablePathsAll (hns : Forest s Q m ns) :
    (tablePathsAll s m ns).Nodup ↔ Apart s m ns := by
  rw [Include.nodup_tablePathsAll hns.names, apart_iff]
  exact forall₂_congr fun n hn => (hns.rooted n hn).nodup_tablePaths

/-- The hops of a path of a table are names of joined nodes, and `through` for a link table. -/
theorem Rooted.arrowFree_of_mem (hn : n.Rooted s Q m) (hmem : n ∈ ns)
    (hfree : ∀ assoc c, JoinedBelow s m ns assoc c → ArrowFree c.name)
    (h : path ∈ tablePaths s m n) : ∀ hop ∈ path, ArrowFree hop := by
  induction hn generalizing ns path with
  | @node m t assoc n hf _ _ _ _ _ ih =>
    obtain ⟨hs, -⟩ := exists_cons_of_mem_tablePaths h
    rw [tablePaths_of_joined hs hf] at h
    obtain ⟨rest, hrest, rfl⟩ := List.mem_map.mp h
    refine List.forall_mem_cons.mpr ⟨hfree assoc n (.here hmem hs hf), ?_⟩
    refine arrowFree_rootPaths (fun path hpath => ?_) rest hrest
    obtain ⟨c, hc, hpath⟩ := mem_tablePathsAll.mp hpath
    exact ih c hc hc (fun assoc' d hd => hfree assoc' d (.under hmem hs hf hd)) hpath

/-- Below a model whose joined nodes have names without an arrow, tables have distinct names exactly
if they have distinct paths. -/
theorem Forest.nodup_names (hns : Forest s Q m ns)
    (hfree : ∀ assoc c, JoinedBelow s m ns assoc c → ArrowFree c.name) :
    ((rootPaths linked (tablePathsAll s m ns)).map (joinName table)).Nodup ↔
      (rootPaths linked (tablePathsAll s m ns)).Nodup := by
  refine nodup_map_joinName (arrowFree_rootPaths fun path h => ?_)
  obtain ⟨n, hn, h⟩ := mem_tablePathsAll.mp h
  exact (hns.rooted n hn).arrowFree_of_mem hn hfree h

/-- A separate node introduces its own table, its link table, and those of the nodes it joins. -/
theorem names_of_batch {keys : List Document} {b : Batch} (hn : n.Rooted s Q parent)
    (h : n.batch s parent keys = .ok b) (hf : s.follow parent n.name = .ok (assoc, t)) :
    b.names = (rootPaths assoc.usedLink?.isSome (tablePathsAll s t n.includes)).map
      (joinName t.name) := by
  rw [batch_steps, hf, ok_bind] at h
  obtain ⟨items, -, h⟩ := bind_eq_ok.mp h
  obtain ⟨below, -, h⟩ := bind_eq_ok.mp h
  obtain ⟨joins, hjoins, h⟩ := bind_eq_ok.mp h
  obtain ⟨filter, -, h⟩ := bind_eq_ok.mp h
  obtain ⟨page, -, h⟩ := bind_eq_ok.mp h
  cases h
  rw [map_rootPaths, Batch.names, (hn.includes hf).names_joinsAll hjoins, Option.map_map]
  rfl

end Include

end RelQuery

import RelQuery.Proofs.Filter.Local
import RelQuery.Proofs.Include.Alike
import RelQuery.Proofs.Include.Joined
import RelQuery.Proofs.Statement.LookBack

/-!
# What the filters of includes read

The filter of a node is written where its model goes by a name of the statement that reads the node:
the one of its parent, or one of its own. A node reads only what `R` allows if every filter below it
leads only along hops that `R` allows there. If none leads along any hops, the conditions of all
joins look back; if they lead through joined nodes, every condition is in scope.
-/

namespace RelQuery

/-- The names that tables have in the FROM clause of the statement of a separate node. -/
def Batch.tables (b : Batch) : List String := b.name :: b.joins.map (·.name)

/-- The conditions of a statement of a separate node name only tables of its FROM clause. -/
structure Batch.InScope (s : Schema) (b : Batch) : Prop where
  condition : ∀ c, b.filter = some c → c.In s b.tables
  joins : ∀ j ∈ b.joins, ∀ c, j.filter = some c → c.In s b.tables

namespace Include

/-- Filters lead only along hops that `R` allows from the model and the nodes where they stand. -/
inductive Reads (s : Schema) (R : Model → List Include → List String → Prop) :
    Model → String → Include → Prop
  | node {m t : Model} {assoc : Association} {table : String} {n : Include} :
      s.follow m n.name = .ok (assoc, t) →
      (∀ f, n.filter = some f → f.Reads s t (n.ownName t table) (R t n.includes)) →
      (∀ c ∈ n.includes, Reads s R t (n.ownName t table) c) → Reads s R m table n

/-- Filters that do not leave the model they are on. -/
def OwnModel (_ : Model) (_ : List Include) (hops : List String) : Prop := hops = []

/-- Filters that lead through joined nodes. -/
def ThroughJoins (s : Schema) (m : Model) (ns : List Include) (hops : List String) : Prop :=
  Joined s false m ns hops

variable {s : Schema} {R R' : Model → List Include → List String → Prop}
  {Q Q' : Model → Filter → Prop} {m t : Model} {assoc : Association} {a b n n' c : Include}
  {ns ns' bs : List Include} {table : String} {known : List String} {js : List Join} {j : Join}
  {hops : List String} {cond : Condition}

namespace Reads

variable (h : n.Reads s R m table) (hf : s.follow m n.name = .ok (assoc, t))
include h hf

theorem filter {f : Filter} (hn : n.filter = some f) :
    f.Reads s t (n.ownName t table) (R t n.includes) := by
  cases h with
  | node hf' hfilter =>
    cases hf.symm.trans hf'
    exact hfilter f hn

theorem includes (hc : c ∈ n.includes) : c.Reads s R t (n.ownName t table) := by
  cases h with
  | node hf' _ hi =>
    cases hf.symm.trans hf'
    exact hi c hc

end Reads

theorem Reads.mono (h : n.Reads s R m table) (hR : ∀ {t ns hops}, R t ns hops → R' t ns hops) :
    n.Reads s R' m table := by
  induction h with
  | node hf hfilter _ ih => exact .node hf (fun f hn => (hfilter f hn).mono fun _ => hR) ih

/-! ## Statements -/

theorem ownName_of_joined (hs : n.separate = false) :
    n.ownName t table = joinName table [n.name] := by
  simp [ownName, hs]

theorem ownName_of_separate (hs : n.separate = true) : n.ownName t table = t.name := by
  simp [ownName, hs]

theorem joinsAll_cons_eq_ok (h : joinsAll s m table (n :: ns) = .ok js) :
    ∃ here rest, joins s m table n = .ok here ∧ joinsAll s m table ns = .ok rest ∧
      js = here ++ rest := by
  obtain ⟨here, hhere, h⟩ := bind_eq_ok.mp h
  obtain ⟨rest, hrest, h⟩ := bind_eq_ok.mp h
  exact ⟨here, rest, hhere, hrest, (Except.ok.inj h).symm⟩

theorem allLookBack_of_forall (h : joinsAll s m table ns = .ok js)
    (H : ∀ n ∈ ns, ∀ here, joins s m table n = .ok here → Join.AllLookBack s known here) :
    Join.AllLookBack s known js := by
  induction ns generalizing js with
  | nil =>
    cases h
    trivial
  | cons n ns ih =>
    obtain ⟨here, rest, hhere, hrest, rfl⟩ := joinsAll_cons_eq_ok h
    rw [List.forall_mem_cons] at H
    exact (H.1 here hhere).append (ih hrest H.2)

theorem Reads.allLookBack_joins (hn : n.Reads s OwnModel m table) (ht : table ∈ known)
    (h : joins s m table n = .ok js) : Join.AllLookBack s known js := by
  induction hn generalizing known js with
  | @node m t assoc table n hf hfilter _ ih =>
    cases hs : n.separate with
    | true =>
      cases (joins_of_separate hs).symm.trans h
      trivial
    | false =>
      obtain ⟨condition, below, hcondition, hbelow, rfl⟩ := joins_eq_ok h hs hf
      simp only [ownName_of_joined hs] at hfilter ih
      -- The node's name is one that its join introduces, so it is known to all joins below.
      have hown : joinName table [n.name] ∈
          known ++ (joinOf assoc m t table n.required condition).names := by
        rw [← Schema.name_of_follow hf]
        exact List.mem_append_right _ Join.mem_names_joinOf
      refine ⟨Join.looksBack_joinOf ht fun c hc => ?_,
        allLookBack_of_forall hbelow fun c hc here hhere => ih c hc hown hhere⟩
      obtain ⟨f, hn, hc⟩ := exists_left_of_rel (Filter.rel_condition? hcondition) hc
      refine (hfilter f hn).condition (Schema.mem_of_follow hf) (fun hops hh => ?_) hc
      cases hh
      exact hown

/-- If no filter leaves its model, every join looks back. -/
theorem allLookBack_joinsAll (hns : ∀ n ∈ ns, n.Reads s OwnModel m table) (ht : table ∈ known)
    (h : joinsAll s m table ns = .ok js) : Join.AllLookBack s known js :=
  allLookBack_of_forall h fun n hn _ hhere => (hns n hn).allLookBack_joins ht hhere

/-- The names of the tables that joins introduce for their models. -/
theorem mem_names_of_joined {table : String} (hj : Joined s false m ns hops)
    (h : joinsAll s m table ns = .ok js) : joinName table hops ∈ table :: js.map (·.name) := by
  by_cases hne : hops = []
  · rw [hne]
    exact List.mem_cons_self
  · exact List.mem_cons_of_mem _ (hj.mem_joinsAll hne h)

theorem Reads.in_joins (hn : n.Reads s (ThroughJoins s) m table) (h : joins s m table n = .ok js)
    (hj : j ∈ js) (hc : j.filter = some cond) : cond.In s (js.map (·.name)) := by
  induction hn generalizing js with
  | @node m t assoc table n hf hfilter _ ih =>
    cases hs : n.separate with
    | true =>
      cases (joins_of_separate hs).symm.trans h
      cases hj
    | false =>
      obtain ⟨condition, below, hcondition, hbelow, rfl⟩ := joins_eq_ok h hs hf
      simp only [ownName_of_joined hs] at hfilter ih
      have hnames : joinName table [n.name] :: below.map (·.name) =
          (joinOf assoc m t table n.required condition :: below).map (·.name) := by
        rw [List.map_cons, name_joinOf, Schema.name_of_follow hf]
      rcases List.mem_cons.mp hj with rfl | hj
      · rw [Join.filter_joinOf] at hc
        obtain ⟨f, hn, hc⟩ := exists_left_of_rel (Filter.rel_condition? hcondition) hc
        rw [← hnames]
        exact (hfilter f hn).condition (Schema.mem_of_follow hf)
          (fun hops hh => mem_names_of_joined hh hbelow) hc
      · obtain ⟨c, hc', here, hhere, hj, hsub⟩ := exists_joins_of_mem hbelow hj
        rw [← hnames]
        exact (ih c hc' hhere hj).mono (List.subset_cons_of_subset _ (List.map_subset _ hsub))

/-- If every filter leads through joined nodes, the condition of every join is in scope. -/
theorem in_joinsAll (hns : ∀ n ∈ ns, n.Reads s (ThroughJoins s) m table)
    (h : joinsAll s m table ns = .ok js) (hj : j ∈ js) (hc : j.filter = some cond) :
    cond.In s (js.map (·.name)) := by
  obtain ⟨n, hn, here, hhere, hj, hsub⟩ := exists_joins_of_mem h hj
  exact ((hns n hn).in_joins hhere hj hc).mono (List.map_subset _ hsub)

/-! ### Of separate nodes -/

/-- If every filter leads through joined nodes, the conditions of the statement of a separate node
are in scope. -/
theorem Reads.in_batch {keys : List Document} {b : Batch}
    (hn : n.Reads s (ThroughJoins s) m table) (hs : n.separate = true)
    (h : n.batch s m keys = .ok b) : b.InScope s := by
  obtain ⟨assoc, t, hf, hname, hjoins, hfilter⟩ := batch_eq_ok h
  have hown : n.ownName t table = t.name := ownName_of_separate hs
  refine ⟨fun c hc => ?_, fun j hj c hc => ?_⟩
  · obtain ⟨f, hn', hc⟩ := exists_left_of_rel (Filter.rel_condition? hfilter) hc
    have hreads := hn.filter hf hn'
    rw [hown] at hreads
    refine hreads.condition (Schema.mem_of_follow hf) (fun hops hh => ?_) hc
    rw [Batch.tables, hname]
    exact mem_names_of_joined hh hjoins
  · have hreads : ∀ c ∈ n.includes, c.Reads s (ThroughJoins s) t t.name :=
      fun c hc => hown ▸ hn.includes hf hc
    exact (in_joinsAll hreads hjoins hj hc).mono (List.subset_cons_self _ _)

/-! ## Filters that do not leave their model -/

theorem Rooted.strengthen {P : Filter → Prop} (h : n.Rooted s Q m)
    (hn : ∀ f, n.filter = some f → P f)
    (H : ∀ hops c f, nodeAt? hops n.includes = some c → c.filter = some f → P f) :
    n.Rooted s (fun t f => Q t f ∧ P f) m := by
  induction h with
  | @node m t assoc n hf ht hk hfilter hnames hi ih =>
    have hforest : Forest s Q t n.includes := ⟨hnames, hi⟩
    refine .node hf ht hk (fun f hf => ⟨hfilter f hf, hn f hf⟩) hnames fun c hc => ?_
    have hchild := hforest.child?_of_mem hc
    refine ih c hc (fun f => H [c.name] c f hchild) fun hops d f hd => ?_
    cases hops with
    | nil => cases hd
    | cons next rest =>
      refine H (c.name :: next :: rest) d f ?_
      rw [nodeAt?_cons_cons, hchild]
      exact hd

/-- A property of the filters of all nodes is one more that a forest has. -/
theorem Forest.strengthen {P : Filter → Prop} (h : Forest s Q m ns)
    (H : ∀ hops n f, nodeAt? hops ns = some n → n.filter = some f → P f) :
    Forest s (fun t f => Q t f ∧ P f) m ns := by
  refine ⟨h.names, fun n hn => ?_⟩
  have hchild := h.child?_of_mem hn
  refine (h.rooted n hn).strengthen (fun f => H [n.name] n f hchild) fun hops c f hc => ?_
  cases hops with
  | nil => cases hc
  | cons next rest =>
    refine H (n.name :: next :: rest) c f ?_
    rw [nodeAt?_cons_cons, hchild]
    exact hc

theorem reads_of_lower (h : lower s m table n = .ok n')
    (hn : n.Rooted s (fun t f => f.Sourced s t ∧ f.Local) m) : n'.Reads s OwnModel m table := by
  induction hn generalizing table n' with
  | @node m t assoc n hf ht hk hfilter hnames hi ih =>
    obtain ⟨assoc', t', filter, includes, hf', hlower, hi', rfl⟩ := lower_eq_ok h
    cases hf.symm.trans hf'
    refine .node hf (fun g hg => ?_) fun c hc => ?_
    · obtain ⟨f, hfn, hg⟩ := exists_left_of_rel hlower hg
      obtain ⟨hsource, hlocal⟩ := hfilter f hfn
      exact hsource.lower (fun path negated hr => hlocal path negated hr) hg
    · rw [lowerAll_eq_mapM] at hi'
      obtain ⟨c', hc', h⟩ := mem_of_mapM hi' hc
      exact ih c' hc' h

/-- Lowering makes text of filters where they are written. -/
theorem reads_of_lowerAll (h : lowerAll s m table ns = .ok ns')
    (hns : Forest s (fun t f => f.Sourced s t ∧ f.Local) m ns) :
    ∀ n ∈ ns', n.Reads s OwnModel m table := by
  intro n hn
  rw [lowerAll_eq_mapM] at h
  obtain ⟨n', hn', h⟩ := mem_of_mapM h hn
  exact reads_of_lower h (hns.rooted n' hn')

end Include

end RelQuery

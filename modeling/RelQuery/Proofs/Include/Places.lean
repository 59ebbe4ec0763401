import RelQuery.Proofs.Include.Reads

/-!
# Where the filters of includes are written

The statement of a plan joins its nodes, the statement of a separate node those below it. `PlaceAt`
finds the place of each node of a tree: the statement that reads it and the name that its model has
there. At that name the statement writes the filter of the node, in the condition of a join or in
that of a separate node.
-/

namespace RelQuery.Include

/-- A node of an include tree with what it takes to write its filter. -/
structure Place where
  /-- The model whose rows the statement around the node reads, and the nodes below it. -/
  base : Model
  nodes : List Include
  parent : Model
  node : Include
  model : Model
  /-- The name of the model of the node. -/
  name : String

/-- The place of the node at a position among `ns`, which are below `m`, called `table`, in the
statement that reads `nodes` below `base`. -/
inductive PlaceAt (s : Schema) : Model → List Include → Model → String → List Include →
    List Nat → Place → Prop
  | here {base m t : Model} {nodes ns : List Include} {table : String} {i : Nat} {n : Include}
      {assoc : Association} : ns[i]? = some n → s.follow m n.name = .ok (assoc, t) →
      PlaceAt s base nodes m table ns [i] ⟨base, nodes, m, n, t, n.ownName t table⟩
  | joined {base m t : Model} {nodes ns : List Include} {table : String} {i : Nat} {is : List Nat}
      {n : Include} {assoc : Association} {place : Place} : ns[i]? = some n →
      s.follow m n.name = .ok (assoc, t) → n.separate = false →
      PlaceAt s base nodes t (joinName table [n.name]) n.includes is place →
      PlaceAt s base nodes m table ns (i :: is) place
  /-- A separate node has a statement of its own. -/
  | separate {base m t : Model} {nodes ns : List Include} {table : String} {i : Nat}
      {is : List Nat} {n : Include} {assoc : Association} {place : Place} : ns[i]? = some n →
      s.follow m n.name = .ok (assoc, t) → n.separate = true →
      PlaceAt s t n.includes t t.name n.includes is place →
      PlaceAt s base nodes m table ns (i :: is) place

/-- The joins of nodes are among those of the statement around them. -/
def Within (s : Schema) (base : Model) (nodes : List Include) (m : Model) (table : String)
    (ns : List Include) : Prop :=
  ∀ js, joinsAll s base base.name nodes = .ok js → ∃ below,
    joinsAll s m table ns = .ok below ∧ below ⊆ js

variable {s : Schema} {base m t : Model} {assoc : Association} {nodes ns : List Include}
  {n : Include} {table : String} {is : List Nat} {place : Place} {js : List Join}

theorem within_self (s : Schema) (m : Model) (ns : List Include) : Within s m ns m m.name ns :=
  fun js h => ⟨js, h, List.Subset.refl js⟩

theorem Within.below (h : Within s base nodes m table ns) (hn : n ∈ ns)
    (hs : n.separate = false) (hf : s.follow m n.name = .ok (assoc, t)) :
    Within s base nodes t (joinName table [n.name]) n.includes := by
  intro js hjs
  obtain ⟨all, hall, hsub⟩ := h js hjs
  obtain ⟨here, hhere, hsub'⟩ := joins_of_mem hall hn
  obtain ⟨condition, below, -, hbelow, rfl⟩ := joins_eq_ok hhere hs hf
  exact ⟨below, hbelow, fun j hj => hsub (hsub' (List.mem_cons_of_mem _ hj))⟩

/-- The statement around a joined node has its join. -/
theorem PlaceAt.exists_join (h : PlaceAt s base nodes m table ns is place)
    (hw : Within s base nodes m table ns) (hs : place.node.separate = false)
    (hjs : joinsAll s place.base place.base.name place.nodes = .ok js) : ∃ j ∈ js,
      j.name = place.name ∧
      Filter.condition? s place.model place.name place.node.filter = .ok j.filter := by
  induction h with
  | here hi hf =>
    obtain ⟨all, hall, hsub⟩ := hw js hjs
    obtain ⟨here, hhere, hsub'⟩ := joins_of_mem hall (List.mem_of_getElem? hi)
    obtain ⟨condition, below, hcondition, -, rfl⟩ := joins_eq_ok hhere hs hf
    rw [ownName_of_joined hs]
    refine ⟨_, hsub (hsub' List.mem_cons_self), ?_, ?_⟩
    · rw [name_joinOf, Schema.name_of_follow hf]
    · rw [Join.filter_joinOf, hcondition]
  | joined hi hf hn _ ih => exact ih (hw.below (List.mem_of_getElem? hi) hn hf) hs hjs
  | separate _ _ _ _ ih => exact ih (within_self s _ _) hs hjs

theorem PlaceAt.follow (h : PlaceAt s base nodes m table ns is place) :
    ∃ assoc, s.follow place.parent place.node.name = .ok (assoc, place.model) := by
  induction h with
  | here _ hf => exact ⟨_, hf⟩
  | joined _ _ _ _ ih => exact ih
  | separate _ _ _ _ ih => exact ih

theorem PlaceAt.name_of_separate (h : PlaceAt s base nodes m table ns is place)
    (hs : place.node.separate = true) : place.name = place.model.name := by
  induction h with
  | here _ _ => exact ownName_of_separate hs
  | joined _ _ _ _ ih => exact ih hs
  | separate _ _ _ _ ih => exact ih hs

/-- The filter of a node is written at the name of its place: by the statement of a separate node,
and for a joined node by the statement around it. -/
structure Place.Written (s : Schema) (place : Place) : Prop where
  separate : place.node.separate = true → ∀ keys b,
    place.node.batch s place.parent keys = .ok b → b.name = place.name ∧
      Filter.condition? s place.model b.name place.node.filter = .ok b.filter ∧
      joinsAll s place.model b.name place.node.includes = .ok b.joins
  joined : place.node.separate = false → ∀ js,
    joinsAll s place.base place.base.name place.nodes = .ok js → ∃ j ∈ js, j.name = place.name ∧
      Filter.condition? s place.model j.name place.node.filter = .ok j.filter

theorem PlaceAt.written (h : PlaceAt s m ns m m.name ns is place) : place.Written s where
  separate hs keys b hb := by
    obtain ⟨assoc, hf⟩ := h.follow
    obtain ⟨assoc', t, hf', hname, hjoins, hfilter⟩ := batch_eq_ok hb
    cases hf.symm.trans hf'
    exact ⟨hname.trans (h.name_of_separate hs).symm, hname ▸ hfilter, hname ▸ hjoins⟩
  joined hs js hjs := by
    obtain ⟨j, hj, hname, hfilter⟩ := h.exists_join (within_self s m ns) hs hjs
    exact ⟨j, hj, hname, hname ▸ hfilter⟩

end RelQuery.Include

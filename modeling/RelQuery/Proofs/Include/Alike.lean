import Mathlib.Data.List.Nodup
import RelQuery.Proofs.Filter.MergeValue
import RelQuery.Proofs.Include.Nodes

/-!
# Trees up to the order of siblings

Two include trees are alike if they differ only in the order of siblings and of attributes, and in
filters that are logically equivalent. Forests are alike if they have alike nodes at the same paths.
-/

namespace RelQuery

/-- Filters that may be missing have one value under every assignment of truth values. -/
def Filter.Equivalent (f? g? : Option Filter) : Prop :=
  ∀ (α : Type) [Lattice α] [BoundedOrder α] [Compl α] (v : Valuation α),
    evalOption v f? = evalOption v g?

theorem Filter.Equivalent.refl (f? : Option Filter) : Equivalent f? f? := fun _ _ _ _ _ => rfl

namespace Include

/-- Two nodes are the same but for what is below them. -/
structure SameNode (a b : Include) : Prop where
  target : a.target = b.target
  name : a.name = b.name
  kind : a.kind = b.kind
  attributes : ∀ x, x ∈ a.attributes ↔ x ∈ b.attributes
  filter : Filter.Equivalent a.filter b.filter
  required : a.required = b.required
  limit : a.limit = b.limit
  offset : a.offset = b.offset
  separate : a.separate = b.separate

/-- Two nodes are the same, and so are those below them in some order. -/
inductive Alike : Include → Include → Prop
  | node {a b : Include} {cs : List Include} : SameNode a b → a.includes.Perm cs →
      List.Forall₂ Alike cs b.includes → Alike a b

/-- Nodes that are alike in some order. -/
def AllAlike (ns ns' : List Include) : Prop := ∃ cs, ns.Perm cs ∧ List.Forall₂ Alike cs ns'

theorem SameNode.refl (n : Include) : SameNode n n :=
  ⟨rfl, rfl, rfl, fun _ => Iff.rfl, .refl _, rfl, rfl, rfl, rfl⟩

theorem SameNode.mark {a b : Include} {x y : Bool} (h : SameNode a b) (hxy : x = y) :
    SameNode (mark x a) (mark y b) :=
  ⟨h.target, h.name, h.kind, h.attributes, h.filter, congrArg₂ or h.required hxy, h.limit,
    h.offset, h.separate⟩

theorem rel_refl (a? : Option Include) : Option.Rel SameNode a? a? := by
  cases a? with
  | none => exact .none
  | some a => exact .some (.refl a)

theorem rel_mark {a? b? : Option Include} {x y : Bool} (h : Option.Rel SameNode a? b?)
    (hxy : x = y) : Option.Rel SameNode (a?.map (mark x)) (b?.map (mark y)) := by
  cases h with
  | none => exact .none
  | some h => exact .some (h.mark hxy)

variable {s : Schema} {Q Q' : Model → Filter → Prop} {m : Model} {a b : Include}
  {ns ns' : List Include} {name : String}

/-- Trees have the same node, or none, at the end of every path. -/
def SameNodes (ns ns' : List Include) : Prop :=
  ∀ hops, Option.Rel SameNode (bareAt? hops ns) (bareAt? hops ns')

namespace SameNodes

theorem here (h : SameNodes ns ns') (ha : child? name ns = some a) (hb : child? name ns' = some b) :
    SameNode a b := by
  have hrel : Option.Rel SameNode ((child? name ns).map bare) ((child? name ns').map bare) :=
    h [name]
  rw [ha, hb] at hrel
  cases hrel with
  | some h => exact ⟨h.1, h.2, h.3, h.4, h.5, h.6, h.7, h.8, h.9⟩

theorem below (h : SameNodes ns ns') (ha : child? name ns = some a)
    (hb : child? name ns' = some b) : SameNodes a.includes b.includes := by
  intro hops
  cases hops with
  | nil => exact .none
  | cons next rest =>
    have hrel := h (name :: next :: rest)
    rwa [bareAt?_cons_cons, bareAt?_cons_cons, ha, hb] at hrel

theorem exists_left (h : SameNodes ns ns') (hb : child? name ns' = some b) :
    ∃ a, child? name ns = some a := by
  have hrel : Option.Rel SameNode ((child? name ns).map bare) ((child? name ns').map bare) :=
    h [name]
  rw [hb] at hrel
  cases hn : child? name ns with
  | none =>
    rw [hn] at hrel
    cases hrel
  | some a => exact ⟨a, rfl⟩

theorem exists_right (h : SameNodes ns ns') (ha : child? name ns = some a) :
    ∃ b, child? name ns' = some b := by
  have hrel : Option.Rel SameNode ((child? name ns).map bare) ((child? name ns').map bare) :=
    h [name]
  rw [ha] at hrel
  cases hn : child? name ns' with
  | none =>
    rw [hn] at hrel
    cases hrel
  | some b => exact ⟨b, rfl⟩

end SameNodes

/-- The nodes that have the names of others, in their order. -/
def inOrderOf (ns ns' : List Include) : List Include := ns'.filterMap fun b => child? b.name ns

theorem inOrderOf_cons {bs : List Include} (h : child? b.name ns = some a) :
    inOrderOf ns (b :: bs) = a :: inOrderOf ns bs := by
  simp [inOrderOf, h]

theorem names_inOrderOf (h : ∀ b ∈ ns', ∃ a, child? b.name ns = some a) :
    (inOrderOf ns ns').map (·.name) = ns'.map (·.name) := by
  induction ns' with
  | nil => rfl
  | cons b bs ih =>
    rw [List.forall_mem_cons] at h
    obtain ⟨a, ha⟩ := h.1
    rw [inOrderOf_cons ha, List.map_cons, List.map_cons, ih h.2, name_of_child? ha]

theorem forall₂_inOrderOf {R : Include → Include → Prop}
    (h : ∀ b ∈ ns', ∃ a, child? b.name ns = some a ∧ R a b) :
    List.Forall₂ R (inOrderOf ns ns') ns' := by
  induction ns' with
  | nil => exact .nil
  | cons b bs ih =>
    rw [List.forall_mem_cons] at h
    obtain ⟨a, ha, hr⟩ := h.1
    rw [inOrderOf_cons ha]
    exact .cons hr (ih h.2)

variable (hns : Forest s Q m ns) (hns' : Forest s Q' m ns') (h : SameNodes ns ns')
include hns hns' h

theorem perm_inOrderOf : ns.Perm (inOrderOf ns ns') := by
  have hmem : ∀ a, a ∈ ns ↔ a ∈ inOrderOf ns ns' := by
    intro a
    unfold inOrderOf
    rw [List.mem_filterMap]
    constructor
    · intro ha
      obtain ⟨b, hb⟩ := h.exists_right (hns.child?_of_mem ha)
      exact ⟨b, mem_of_child? hb, name_of_child? hb ▸ hns.child?_of_mem ha⟩
    · rintro ⟨b, -, ha⟩
      exact mem_of_child? ha
  have hnames : ((inOrderOf ns ns').map (·.name)).Nodup := by
    rw [names_inOrderOf fun b hb => h.exists_left (hns'.child?_of_mem hb)]
    exact hns'.names
  exact (List.perm_ext_iff_of_nodup (.of_map _ hns.names) (.of_map _ hnames)).mpr hmem

theorem allAlike_of (H : ∀ b ∈ ns', ∀ {a : Include}, a.Rooted s Q m → b.Rooted s Q' m →
    SameNode a b → SameNodes a.includes b.includes → Alike a b) : AllAlike ns ns' := by
  refine ⟨inOrderOf ns ns', perm_inOrderOf hns hns' h, forall₂_inOrderOf fun b hb => ?_⟩
  have hchild := hns'.child?_of_mem hb
  obtain ⟨a, ha⟩ := h.exists_left hchild
  exact ⟨a, ha, H b hb (hns.rooted_of_child? ha) (hns'.rooted b hb) (h.here ha hchild)
    (h.below ha hchild)⟩

omit hns hns' h in
theorem alike_of_sameNodes (ha : a.Rooted s Q m) (hb : b.Rooted s Q' m) (hab : SameNode a b)
    (h : SameNodes a.includes b.includes) : Alike a b := by
  induction b generalizing m a with
  | node b ih =>
    obtain ⟨assoc, t, hf⟩ := ha.exists_follow
    obtain ⟨cs, hperm, hcs⟩ := allAlike_of (ha.includes hf) (hb.includes (hab.name ▸ hf)) h
      fun c hc _ ha hb hab h => ih c hc ha hb hab h
    exact .node hab hperm hcs

/-- Forests are alike if they have the same nodes at the same paths. -/
theorem allAlike_of_sameNodes : AllAlike ns ns' :=
  allAlike_of hns hns' h fun _ _ _ ha hb hab h => alike_of_sameNodes ha hb hab h

end Include

end RelQuery

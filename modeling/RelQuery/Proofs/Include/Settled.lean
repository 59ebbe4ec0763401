import RelQuery.Proofs.Filter.Same
import RelQuery.Proofs.Include.Joined
import RelQuery.Proofs.Include.Nodes

/-!
# Trees that a merge leaves alone

A forest merged with itself stays as it is. Marking inner joins along a path twice is marking them
once, in whatever order paths are marked, and a path that runs through inner joins needs no marking.
-/

namespace RelQuery

theorem addName_of_mem {names : List String} {name : String} (h : name ∈ names) :
    addName names name = names :=
  if_pos (List.contains_iff_mem.mpr h)

theorem foldl_addName_of_subset {names more : List String} (h : more ⊆ names) :
    more.foldl addName names = names := by
  induction more with
  | nil => rfl
  | cons name more ih =>
    rw [List.cons_subset] at h
    rw [List.foldl_cons, addName_of_mem h.1, ih h.2]

theorem agree_self {α : Type} [DecidableEq α] (modifier : Modifier) (a : Option α) :
    agree modifier a a = .ok a :=
  agree_eq_ok.mpr ⟨compatible_self, Option.or_self.symm⟩

namespace Include

variable {s : Schema} {Q : Model → Filter → Prop} {m : Model} {n : Include} {ns bs : List Include}
  {hop : String} {hops hops' : List String}

/-! ## Merging a tree with itself -/

theorem upsert_self {p : Include → Bool} {change : Include → Except PlanError Include}
    {fresh : Except PlanError Include} (h : ns.find? p = some n) (hn : change n = .ok n) :
    upsert p change fresh ns = .ok ns := by
  induction ns with
  | nil => cases h
  | cons c ns ih =>
    rw [upsert_cons_eq_ok]
    by_cases hp : p c = true
    · rw [List.find?_cons_of_pos hp] at h
      cases h
      exact .inl ⟨hp, n, hn, rfl⟩
    · rw [List.find?_cons_of_neg hp] at h
      exact .inr ⟨Bool.eq_false_iff.mpr hp, ns, ih h, rfl⟩

theorem mergeAll_of_subset (H : ∀ b ∈ bs, merge b b = .ok b) (hns : Forest s Q m ns)
    (h : bs ⊆ ns) : mergeAll ns bs = .ok ns := by
  induction bs with
  | nil => rfl
  | cons b bs ih =>
    rw [List.forall_mem_cons] at H
    rw [List.cons_subset] at h
    have hfind : ns.find? (·.sameJoin b) = some b :=
      (find?_sameJoin hns (hns.rooted b h.1)).trans (hns.child?_of_mem h.1)
    have hself : upsert (·.sameJoin b) (fun a => merge a b) (.ok b) ns = .ok ns :=
      upsert_self hfind H.1
    rw [mergeAll, hself, ok_bind, ih H.2 h.2]

theorem Rooted.merge_self (h : n.Rooted s Q m) : Include.merge n n = .ok n := by
  induction h with
  | @node m t assoc n hf ht hk hfilter hnames hi ih =>
    have hall := mergeAll_of_subset ih ⟨hnames, hi⟩ (List.Subset.refl _)
    obtain ⟨_, _, _, attributes, _, _, _, _, _, _⟩ := n
    rw [Include.merge]
    dsimp only at hall ⊢
    rw [hall, agree_self, agree_self, ok_bind, ok_bind, ok_bind,
      foldl_addName_of_subset (List.Subset.refl attributes), Filter.merge?_self, Bool.and_self,
      Bool.or_self]
    rfl

/-- A forest merged with itself stays as it is. -/
theorem mergeAll_self (hns : Forest s Q m ns) : mergeAll ns ns = .ok ns :=
  mergeAll_of_subset (fun b hb => (hns.rooted b hb).merge_self) hns (List.Subset.refl _)

/-! ## Marking paths -/

theorem modifyFirst_cons {change : Include → Include} :
    modifyFirst (·.name == hop) change (n :: ns) =
      if n.name = hop then change n :: ns else n :: modifyFirst (·.name == hop) change ns := by
  rw [modifyFirst]
  by_cases h : n.name = hop <;> simp [h]

section
variable {a b : String} {f g : Include → Include} (hf : ∀ n, (f n).name = n.name)
  (hg : ∀ n, (g n).name = n.name)
include hf hg

theorem modifyFirst_comm (h : a = b → ∀ n, f (g n) = g (f n)) :
    modifyFirst (·.name == a) f (modifyFirst (·.name == b) g ns) =
      modifyFirst (·.name == b) g (modifyFirst (·.name == a) f ns) := by
  induction ns with
  | nil => rfl
  | cons n ns ih =>
    by_cases ha : n.name = a
    · by_cases hb : n.name = b
      · simp only [modifyFirst_cons, if_pos ha, if_pos hb, hf, hg, h (ha.symm.trans hb)]
      · simp only [modifyFirst_cons, if_pos ha, if_neg hb, hf]
    · by_cases hb : n.name = b
      · simp only [modifyFirst_cons, if_neg ha, if_pos hb, hg]
      · simp only [modifyFirst_cons, if_neg ha, if_neg hb, ih]

omit hg in
theorem modifyFirst_idem (h : ∀ n, f (f n) = f n) :
    modifyFirst (·.name == a) f (modifyFirst (·.name == a) f ns) =
      modifyFirst (·.name == a) f ns := by
  induction ns with
  | nil => rfl
  | cons n ns ih =>
    by_cases ha : n.name = a
    · simp only [modifyFirst_cons, if_pos ha, hf, h]
    · simp only [modifyFirst_cons, if_neg ha, ih]

end

theorem requireHops_comm :
    requireHops hops (requireHops hops' ns) = requireHops hops' (requireHops hops ns) := by
  induction hops generalizing hops' ns with
  | nil => rfl
  | cons hop hops ih =>
    cases hops' with
    | nil => rfl
    | cons hop' hops' => exact modifyFirst_comm (fun _ => rfl) (fun _ => rfl) fun _ n => by rw [ih]

theorem requireHops_idem : requireHops hops (requireHops hops ns) = requireHops hops ns := by
  induction hops generalizing ns with
  | nil => rfl
  | cons hop hops ih => exact modifyFirst_idem (fun _ => rfl) fun n => by rw [ih]

/-- A path that needs no marking needs none after others are marked. -/
theorem requireHops_requireAll {hopss : List (List String)} (h : requireHops hops ns = ns) :
    requireHops hops (requireAll hopss ns) = requireAll hopss ns := by
  induction hopss generalizing ns with
  | nil => exact h
  | cons hops' hopss ih => exact @ih (requireHops hops' ns) (by rw [requireHops_comm, h])

theorem requireHops_of_mem {hopss : List (List String)} (h : hops ∈ hopss) :
    requireHops hops (requireAll hopss ns) = requireAll hopss ns := by
  induction hopss generalizing ns with
  | nil => cases h
  | cons hops' hopss ih =>
    rcases List.mem_cons.mp h with rfl | h
    · have hrest : requireHops hops (requireAll hopss (requireHops hops ns)) =
          requireAll hopss (requireHops hops ns) := requireHops_requireAll requireHops_idem
      exact hrest
    · exact ih h

/-- Marking paths that need none changes nothing. -/
theorem requireAll_self {hopss : List (List String)}
    (h : ∀ hops ∈ hopss, requireHops hops ns = ns) :
    requireAll hopss ns = ns := by
  induction hopss with
  | nil => rfl
  | cons hops hopss ih =>
    rw [List.forall_mem_cons] at h
    rw [requireAll, List.foldl_cons, h.1]
    exact ih h.2

theorem modifyFirst_self {change : Include → Include} (h : child? hop ns = some n)
    (hn : change n = n) : modifyFirst (·.name == hop) change ns = ns := by
  induction ns with
  | nil => cases h
  | cons c ns ih =>
    rw [child?_cons] at h
    rw [modifyFirst_cons]
    split at h
    · cases h
      rw [if_pos ‹_›, hn]
    · rw [if_neg ‹_›, ih h]

/-- A path through inner joins needs no marking. -/
theorem Joined.requireHops (h : Joined s true m ns hops) (hns : Forest s Q m ns) :
    requireHops hops ns = ns := by
  induction h with
  | nil => rfl
  | @cons m t ns hop hops assoc n hf hfind _ hr _ ih =>
    have hname := name_of_sameJoin hf (List.find?_some hfind)
    have hmem := List.mem_of_find?_eq_some hfind
    have hchild : child? hop ns = some n := hname ▸ hns.child?_of_mem hmem
    have hbelow := ih ((hns.rooted n hmem).includes (hname ▸ hf))
    have hn : { n with required := true, includes := Include.requireHops hops n.includes } = n := by
      rw [hbelow, ← hr rfl]
      cases n
      rfl
    exact modifyFirst_self hchild hn

end Include

end RelQuery

import RelQuery.Proofs.Statement.Parts

/-!
# Joined paths

A path that a filter or an order goes must run through nodes that are joined, not loaded
separately. `ensurePath` makes it so, and no later pass undoes it: other paths are added beside it,
a page leaves pinned nodes in place, and lowering changes only filters. Every node on the path has
its join.
-/

namespace RelQuery.Include

/-- The path `hops` from `m` runs through nodes that are joined; with `inner` by inner joins. Each
node is the first one for its association. -/
inductive Joined (s : Schema) (inner : Bool) : Model → List Include → List String → Prop
  | nil {m : Model} {ns : List Include} : Joined s inner m ns []
  | cons {m t : Model} {ns : List Include} {hop : String} {hops : List String}
      {assoc : Association} {n : Include} :
      s.follow m hop = .ok (assoc, t) → ns.find? (hopNode assoc t).sameJoin = some n →
      n.separate = false → (inner = true → n.required = true) → Joined s inner t n.includes hops →
      Joined s inner m ns (hop :: hops)

variable {s : Schema} {m t : Model} {assoc : Association} {a n n' c : Include}
  {ns ns' : List Include} {hop table : String} {hops path : List String} {inner required : Bool}

/-- The nodes for a hop have its name. -/
theorem name_of_sameJoin (hf : s.follow m hop = .ok (assoc, t))
    (h : (hopNode assoc t).sameJoin n = true) : n.name = hop :=
  (sameJoin_iff.mp h).2.symm.trans (Schema.name_of_follow hf)

theorem sameJoin_congr (ht : n'.target = n.target) (hn : n'.name = n.name) :
    a.sameJoin n' = a.sameJoin n := by
  simp only [sameJoin, ht, hn]

/-! ## The first node with a property -/

variable {p q : Include → Bool} {change : Include → Except PlanError Include}
  {fresh : Except PlanError Include}

/-- The first node with a property that changes keep is still the first one, changed or not. -/
theorem find?_upsert (h : upsert p change fresh ns = .ok ns')
    (hq : ∀ n n', change n = .ok n' → q n' = q n) (hc : ns.find? q = some c) :
    ∃ c', ns'.find? q = some c' ∧ (c' = c ∨ p c = true ∧ change c = .ok c') := by
  induction ns generalizing ns' with
  | nil => cases hc
  | cons n ns ih =>
    rcases upsert_cons_eq_ok.mp h with ⟨hp, n', hn, rfl⟩ | ⟨-, r, h', rfl⟩
    · rw [List.find?_cons] at hc ⊢
      rw [hq n n' hn]
      split at hc
      · cases hc
        exact ⟨n', rfl, .inr ⟨hp, hn⟩⟩
      · exact ⟨c, hc, .inl rfl⟩
    · rw [List.find?_cons] at hc ⊢
      split at hc
      · exact ⟨n, rfl, .inl (Option.some.inj hc)⟩
      · exact ih h' hc

theorem find?_append_of_forall {l r : List Include} (h : ∀ c ∈ l, p c = false) :
    (l ++ r).find? p = r.find? p := by
  have hl : l.find? p = none := List.find?_eq_none.mpr fun c hc => Bool.eq_false_iff.mp (h c hc)
  rw [List.find?_append, hl, Option.none_or]

section
variable {node : Include}

/-- Only the change of one node can fail. -/
theorem exists_upsert_iff : (∃ ns', upsert p change (change node) ns = .ok ns') ↔
    ∃ n', change ((ns.find? p).getD node) = .ok n' := by
  induction ns with
  | nil => simp [upsert_nil_eq_ok]
  | cons n ns ih =>
    by_cases hp : p n = true
    · rw [List.find?_cons_of_pos hp]
      simp [upsert_cons_eq_ok, hp]
    · rw [List.find?_cons_of_neg hp, ← ih]
      simp [upsert_cons_eq_ok, hp]

variable (h : upsert p change (change node) ns = .ok ns')
include h

/-- The first node with the property is the one that was changed, or the one that was added. -/
theorem find?_upsert_changed (hp : ∀ n n', change n = .ok n' → p n' = p n)
    (hnode : p node = true) :
    ∃ n', change ((ns.find? p).getD node) = .ok n' ∧ ns'.find? p = some n' := by
  rcases upsert_eq_ok h with ⟨l, n, r, n', rfl, hl, hn, hc, rfl⟩ | ⟨hall, n', hn, rfl⟩
  · rw [find?_append_of_forall hl, find?_append_of_forall hl, List.find?_cons_of_pos hn,
      List.find?_cons_of_pos ((hp n n' hc).trans hn)]
    exact ⟨n', hc, rfl⟩
  · have hnone : ns.find? p = none :=
      List.find?_eq_none.mpr fun c hc => Bool.eq_false_iff.mp (hall c hc)
    rw [find?_append_of_forall hall, hnone,
      List.find?_cons_of_pos ((hp node n' hn).trans hnode)]
    exact ⟨n', hn, rfl⟩

theorem find?_upsert_of_ne (hpq : ∀ n, p n = true → q n = false)
    (hq : ∀ n n', change n = .ok n' → q n' = q n) (hnode : q node = false) :
    ns'.find? q = ns.find? q := by
  rcases upsert_eq_ok h with ⟨l, n, r, n', rfl, -, hn, hc, rfl⟩ | ⟨-, n', hn, rfl⟩
  · simp [List.find?_append, hpq n hn, hq n n' hc]
  · simp [List.find?_append, hq node n' hn, hnode]

end

theorem find?_mapM {f : Include → Except PlanError Include} (h : ns.mapM f = .ok ns')
    (hq : ∀ n n', f n = .ok n' → q n' = q n) (hc : ns.find? q = some c) :
    ∃ c', ns'.find? q = some c' ∧ f c = .ok c' := by
  induction ns generalizing ns' with
  | nil => cases hc
  | cons n ns ih =>
    obtain ⟨n', ns', hn, hns, rfl⟩ := mapM_cons_eq_ok.mp h
    rw [List.find?_cons] at hc ⊢
    rw [hq n n' hn]
    split at hc
    · cases hc
      exact ⟨n', rfl, hn⟩
    · exact ih hns hc

/-! ## Paths -/

theorem sameJoin_extendNode (h : extendNode s required hops assoc t n = .ok n') :
    a.sameJoin n' = a.sameJoin n := by
  obtain ⟨-, includes, -, rfl⟩ := extendNode_eq_ok h
  exact sameJoin_congr rfl rfl

theorem sameJoin_self : n.sameJoin n = true := sameJoin_iff.mpr ⟨rfl, rfl⟩

/-- A path that was added is joined. -/
theorem Joined.of_ensurePath (h : ensurePath s required hops m ns = .ok ns') :
    Joined s required m ns' hops := by
  induction hops generalizing m ns ns' with
  | nil => exact .nil
  | cons hop hops ih =>
    obtain ⟨assoc, t, hf, h⟩ := ensurePath_cons_eq_ok h
    have hext : ∀ n n', extendNode s required hops assoc t n = .ok n' →
        n'.separate = false ∧ (required = true → n'.required = true) ∧
          Joined s required t n'.includes hops := by
      intro n n' h
      obtain ⟨hs, includes, hi, rfl⟩ := extendNode_eq_ok h
      exact ⟨hs, fun hr => by simp [hr], ih hi⟩
    obtain ⟨n', hn', hfind⟩ :=
      find?_upsert_changed h (fun n n' => sameJoin_extendNode) sameJoin_self
    obtain ⟨hs, hr, hj⟩ := hext _ n' hn'
    exact .cons hf hfind hs hr hj

/-- A joined path stays joined when another one is added. -/
theorem Joined.ensurePath (hj : Joined s inner m ns path)
    (h : ensurePath s required hops m ns = .ok ns') : Joined s inner m ns' path := by
  induction hops generalizing m ns ns' path with
  | nil =>
    cases h
    exact hj
  | cons hop hops ih =>
    cases hj with
    | nil => exact .nil
    | @cons _ t' _ hop' path assoc' n hf' hfind hs hr hj =>
      obtain ⟨assoc, t, hf, h⟩ := ensurePath_cons_eq_ok h
      obtain ⟨n', hfind', rfl | ⟨hp, hn'⟩⟩ :=
        find?_upsert h (fun n n' => sameJoin_extendNode) hfind
      · exact .cons hf' hfind' hs hr hj
      · -- Both paths begin with the same node, so both hops are its name.
        have hhop := name_of_sameJoin hf hp
        have hhop' := name_of_sameJoin hf' (List.find?_some hfind)
        cases hhop.symm.trans hhop'
        cases hf.symm.trans hf'
        obtain ⟨-, includes, hi, rfl⟩ := extendNode_eq_ok hn'
        exact .cons hf' hfind' hs (fun hinner => by simp [hr hinner]) (ih hj hi)

/-! ## Pages -/

theorem splitPage_of_pinned {pinned : List (List String)} (hs : n.separate = false)
    (hp : pinned.any (path ++ [n.name]).isPrefixOf = true) : Plan.splitPage pinned path n =
      { n with includes := Plan.splitPageAll pinned (path ++ [n.name]) n.includes } := by
  cases n
  simp only at hs hp
  simp [Plan.splitPage, hs, hp]

theorem sameJoin_splitPage {pinned : List (List String)} :
    a.sameJoin (Plan.splitPage pinned path n) = a.sameJoin n := by
  rcases splitPage_eq pinned path n with h | ⟨-, h⟩ <;> rw [h] <;> exact sameJoin_congr rfl rfl

/-- A page leaves pinned paths joined. -/
theorem Joined.splitPageAll {pinned : List (List String)} (hj : Joined s inner m ns hops)
    (hp : path ++ hops ∈ pinned) : Joined s inner m (Plan.splitPageAll pinned path ns) hops := by
  induction hj generalizing path with
  | nil => exact .nil
  | @cons m t ns hop hops assoc n hf hfind hs hr _ ih =>
    have hname := name_of_sameJoin hf (List.find?_some hfind)
    have hsplit : Plan.splitPage pinned path n =
        { n with includes := Plan.splitPageAll pinned (path ++ [hop]) n.includes } := by
      rw [← hname]
      refine splitPage_of_pinned hs (List.any_eq_true.mpr ⟨_, hp, ?_⟩)
      rw [hname, List.isPrefixOf_iff_prefix]
      exact ⟨hops, by simp⟩
    have hp' : (path ++ [hop]) ++ hops ∈ pinned := by simpa using hp
    have hfind' : (Plan.splitPageAll pinned path ns).find? (hopNode assoc t).sameJoin =
        some (Plan.splitPage pinned path n) := by
      have hcomp : (hopNode assoc t).sameJoin ∘ Plan.splitPage pinned path =
          (hopNode assoc t).sameJoin := funext fun n => sameJoin_splitPage
      rw [splitPageAll_eq_map, List.find?_map, hcomp, hfind, Option.map_some]
    rw [hsplit] at hfind'
    exact .cons hf hfind' hs hr (ih hp')

/-! ## Lowering -/

theorem sameJoin_lower (h : lower s m table n = .ok n') : a.sameJoin n' = a.sameJoin n := by
  obtain ⟨assoc, m, filter, includes, -, -, -, rfl⟩ := lower_eq_ok h
  exact sameJoin_congr rfl rfl

/-- Lowering leaves paths joined. -/
theorem Joined.lowerAll (hj : Joined s inner m ns hops)
    (h : lowerAll s m table ns = .ok ns') : Joined s inner m ns' hops := by
  induction hj generalizing table ns' with
  | nil => exact .nil
  | @cons m t ns hop hops assoc n hf hfind hs hr _ ih =>
    rw [lowerAll_eq_mapM] at h
    obtain ⟨n', hfind', hn'⟩ := find?_mapM h (fun n n' => sameJoin_lower) hfind
    obtain ⟨assoc', t', filter, includes, hf', -, hi, rfl⟩ := lower_eq_ok hn'
    rw [name_of_sameJoin hf (List.find?_some hfind)] at hf'
    cases hf.symm.trans hf'
    exact .cons hf hfind' hs hr (ih hi)

/-! ## Joins -/

theorem joinName_nil : joinName table [] = table := rfl

theorem joinName_joinName : joinName (joinName table [hop]) hops = joinName table (hop :: hops) :=
  rfl

theorem joinName_append {above : List String} :
    joinName (joinName table above) hops = joinName table (above ++ hops) := by
  induction above generalizing table with
  | nil => rfl
  | cons hop above ih => exact ih

/-- The model at the end of a joined path has its join. -/
theorem Joined.mem_joinsAll {js : List Join} (hj : Joined s inner m ns hops) (hne : hops ≠ [])
    (h : joinsAll s m table ns = .ok js) : joinName table hops ∈ js.map (·.name) := by
  induction hj generalizing table js with
  | nil => exact (hne rfl).elim
  | @cons m t ns hop hops assoc n hf hfind hs _ _ ih =>
    obtain ⟨here, hhere, hsub⟩ := joins_of_mem h (List.mem_of_find?_eq_some hfind)
    have hname := name_of_sameJoin hf (List.find?_some hfind)
    obtain ⟨condition, below, -, hbelow, rfl⟩ := joins_eq_ok hhere hs (hname ▸ hf)
    rw [List.cons_subset] at hsub
    cases hops with
    | nil =>
      have hjoin := List.mem_map_of_mem (f := Join.name) hsub.1
      rwa [name_joinOf, Schema.name_of_follow hf] at hjoin
    | cons hop' hops =>
      rw [hname] at hbelow
      rw [← joinName_joinName]
      exact List.map_subset _ hsub.2 (ih nofun hbelow)

end RelQuery.Include

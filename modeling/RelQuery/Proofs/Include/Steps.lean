import RelQuery.Include.Merge
import RelQuery.Plan.Compose
import RelQuery.Proofs.Except
import RelQuery.Proofs.Schema.Lookup
import RelQuery.Statement.From

/-!
# Include trees, one node at a time

What the functions on include trees do with one node and with one list of nodes. The lemmas say all
that a successful step does, so that properties of trees need not unfold the functions again.
-/

namespace RelQuery.Include

variable {s : Schema} {parent m t : Model} {assoc : Association} {a b n n' : Include}
  {ns ns' bs : List Include} {hop table key : String} {hops : List String}

/-! ## Changing one node -/

variable {p : Include → Bool} {change : Include → Except PlanError Include}
  {fresh : Except PlanError Include}

theorem upsert_nil_eq_ok :
    upsert p change fresh [] = .ok ns' ↔ ∃ n', fresh = .ok n' ∧ ns' = [n'] := by
  simp only [upsert, bind_eq_ok, pure_eq_ok, @eq_comm _ ns']

theorem upsert_cons_eq_ok : upsert p change fresh (n :: ns) = .ok ns' ↔
    (p n = true ∧ ∃ n', change n = .ok n' ∧ ns' = n' :: ns) ∨
    (p n = false ∧ ∃ r, upsert p change fresh ns = .ok r ∧ ns' = n :: r) := by
  rw [upsert]
  cases p n <;> simp only [Bool.false_eq_true, if_true, if_false, bind_eq_ok, pure_eq_ok,
    @eq_comm _ ns', true_and, false_and, or_false, false_or, reduceCtorEq]

/-- The node that was changed or added is among nodes that stay as they are. -/
theorem upsert_eq_ok (h : upsert p change fresh ns = .ok ns') :
    (∃ l n r n', ns = l ++ n :: r ∧ (∀ c ∈ l, p c = false) ∧ p n = true ∧ change n = .ok n' ∧
      ns' = l ++ n' :: r) ∨
    ((∀ c ∈ ns, p c = false) ∧ ∃ n', fresh = .ok n' ∧ ns' = ns ++ [n']) := by
  induction ns generalizing ns' with
  | nil =>
    obtain ⟨n', hn, rfl⟩ := upsert_nil_eq_ok.mp h
    exact .inr ⟨nofun, n', hn, rfl⟩
  | cons n ns ih =>
    rcases upsert_cons_eq_ok.mp h with ⟨hp, n', hn, rfl⟩ | ⟨hp, r, h', rfl⟩
    · exact .inl ⟨[], n, ns, n', rfl, nofun, hp, hn, rfl⟩
    · rcases ih h' with ⟨l, n₁, r, n', rfl, hl, hn, hc, rfl⟩ | ⟨hall, n', hn, rfl⟩
      · exact .inl ⟨n :: l, n₁, r, n', rfl, List.forall_mem_cons.mpr ⟨hp, hl⟩, hn, hc, rfl⟩
      · exact .inr ⟨List.forall_mem_cons.mpr ⟨hp, hall⟩, n', hn, rfl⟩

/-- What holds of all nodes holds after a change that keeps it, or with a new node that has it. -/
theorem forall_upsert {P : Include → Prop} (h : upsert p change fresh ns = .ok ns')
    (hns : ∀ n ∈ ns, P n)
    (hchange : ∀ n ∈ ns, p n = true → ∀ n', change n = .ok n' → P n')
    (hfresh : ∀ n', fresh = .ok n' → P n') : ∀ n ∈ ns', P n := by
  rcases upsert_eq_ok h with ⟨l, n, r, n', rfl, -, hn, hc, rfl⟩ | ⟨-, n', hn, rfl⟩
  · simp only [List.forall_mem_append, List.forall_mem_cons] at hns ⊢
    exact ⟨hns.1, hchange n (by simp) hn n' hc, hns.2.2⟩
  · simp only [List.forall_mem_append, List.forall_mem_singleton]
    exact ⟨hns, hfresh n' hn⟩

theorem forall_modifyFirst {P : Include → Prop} {change : Include → Include}
    (hns : ∀ n ∈ ns, P n) (hchange : ∀ n, P n → P (change n)) :
    ∀ n ∈ modifyFirst p change ns, P n := by
  induction ns with
  | nil => exact hns
  | cons n ns ih =>
    rw [List.forall_mem_cons] at hns
    rw [modifyFirst]
    split
    · exact List.forall_mem_cons.mpr ⟨hchange n hns.1, hns.2⟩
    · exact List.forall_mem_cons.mpr ⟨hns.1, ih hns.2⟩

theorem sameJoin_iff : a.sameJoin b = true ↔ a.target = b.target ∧ a.name = b.name := by
  simp [sameJoin]

/-! ## Paths -/

/-- The node that a hop adds. -/
def hopNode (assoc : Association) (target : Model) : Include :=
  { target := target.name, name := assoc.name, kind := assoc.kind }

/-- The node of a hop with those of the hops after it. -/
def extendNode (s : Schema) (required : Bool) (hops : List String) (assoc : Association)
    (target : Model) (n : Include) : Except PlanError Include :=
  if n.separate then malformed (.throughSeparate assoc.name)
  else do
    let includes ← ensurePath s required hops target n.includes
    return { n with required := n.required || required, includes }

theorem ensurePath_cons {required : Bool} (hf : s.follow m hop = .ok (assoc, t)) :
    ensurePath s required (hop :: hops) m ns =
      upsert (hopNode assoc t).sameJoin (extendNode s required hops assoc t)
        (extendNode s required hops assoc t (hopNode assoc t)) ns := by
  rw [ensurePath, hf, ok_bind]
  rfl

theorem ensurePath_cons_eq_ok {required : Bool}
    (h : ensurePath s required (hop :: hops) m ns = .ok ns') : ∃ assoc target,
      s.follow m hop = .ok (assoc, target) ∧
      upsert (hopNode assoc target).sameJoin (extendNode s required hops assoc target)
        (extendNode s required hops assoc target (hopNode assoc target)) ns = .ok ns' := by
  obtain ⟨⟨assoc, target⟩, hf, h⟩ := bind_eq_ok.mp h
  exact ⟨assoc, target, hf, h⟩

theorem extendNode_eq_ok {required : Bool} (h : extendNode s required hops assoc t n = .ok n') :
    n.separate = false ∧ ∃ includes, ensurePath s required hops t n.includes = .ok includes ∧
      n' = { n with required := n.required || required, includes } := by
  unfold extendNode at h
  split at h
  · cases h
  · rename_i hs
    obtain ⟨includes, hi, h⟩ := bind_eq_ok.mp h
    cases h
    exact ⟨Bool.eq_false_iff.mpr hs, includes, hi, rfl⟩

theorem exists_extendNode {required : Bool} (hs : n.separate = false)
    (h : ∃ includes, ensurePath s required hops t n.includes = .ok includes) :
    ∃ n', extendNode s required hops assoc t n = .ok n' := by
  obtain ⟨includes, hi⟩ := h
  exact ⟨_, by rw [extendNode, hs, if_neg Bool.false_ne_true, hi, ok_bind]; rfl⟩

/-- What every added path keeps, the paths of a filter keep. -/
theorem attachFilter_preserves {P : List Include → Prop} {f : Filter}
    (H : ∀ required hops ns ns', P ns → ensurePath s required hops m ns = .ok ns' → P ns')
    (h : attachFilter s m f ns = .ok ns') (hns : P ns) : P ns' := by
  obtain ⟨ns₁, h₁, h⟩ := bind_eq_ok.mp h
  have hns₁ : P ns₁ := foldlM_preserves (fun ns p _ ns' => H false p.hops ns ns') hns h₁
  exact foldlM_preserves (fun ns hops _ ns' => H true hops ns ns') hns₁ h

/-! ## Merging -/

theorem merge_eq_ok (h : merge a b = .ok n) : ∃ includes limit offset,
    mergeAll a.includes b.includes = .ok includes ∧
    agree .limit a.limit b.limit = .ok limit ∧ agree .offset a.offset b.offset = .ok offset ∧
    n = { a with
      attributes := b.attributes.foldl addName a.attributes
      filter := Filter.merge? a.filter b.filter
      includes, limit, offset
      required := a.required && b.required
      separate := a.separate || b.separate } := by
  cases b
  rw [merge] at h
  obtain ⟨includes, hi, h⟩ := bind_eq_ok.mp h
  obtain ⟨limit, hl, h⟩ := bind_eq_ok.mp h
  obtain ⟨offset, ho, h⟩ := bind_eq_ok.mp h
  cases h
  exact ⟨includes, limit, offset, hi, hl, ho, rfl⟩

theorem mergeAll_cons_eq_ok (h : mergeAll ns (b :: bs) = .ok ns') : ∃ ns₁,
    upsert (·.sameJoin b) (fun a => merge a b) (.ok b) ns = .ok ns₁ ∧
      mergeAll ns₁ bs = .ok ns' := by
  rw [mergeAll] at h
  exact bind_eq_ok.mp h

/-- What every merge of two nodes with one name keeps, merges of lists keep. -/
theorem forall_mergeAll {P : Include → Prop}
    (H : ∀ b ∈ bs, ∀ {a n}, merge a b = .ok n → a.name = b.name → P a → P b → P n)
    (h : mergeAll ns bs = .ok ns') (hns : ∀ n ∈ ns, P n) (hbs : ∀ b ∈ bs, P b) :
    ∀ n ∈ ns', P n := by
  induction bs generalizing ns with
  | nil =>
    cases h
    exact hns
  | cons b bs ih =>
    obtain ⟨ns₁, h₁, h⟩ := mergeAll_cons_eq_ok h
    rw [List.forall_mem_cons] at hbs
    refine ih (fun b hb => H b (List.mem_cons_of_mem _ hb)) h ?_ hbs.2
    refine forall_upsert h₁ hns (fun a ha hj n hn => ?_) fun n hn => ?_
    · exact H b List.mem_cons_self hn (sameJoin_iff.mp hj).2 (hns a ha) hbs.1
    · cases hn
      exact hbs.1

/-! ## Lowering -/

/-- The name by which a statement calls the model of a node below `table`. -/
def ownName (n : Include) (m : Model) (table : String) : String :=
  if n.separate then m.name else joinName table [n.name]

/-- A lowered node has the lowered filter and the lowered nodes below. -/
theorem lower_eq_ok (h : lower s parent table n = .ok n') : ∃ assoc m filter includes,
    s.follow parent n.name = .ok (assoc, m) ∧
    Option.Rel (fun f g => f.lower s m (n.ownName m table) = .ok g) n.filter filter ∧
    lowerAll s m (n.ownName m table) n.includes = .ok includes ∧
    n' = { n with filter, includes } := by
  obtain ⟨_, _, _, _, filter?, _, _, _, _, _⟩ := n
  rw [lower] at h
  obtain ⟨⟨assoc, m⟩, hf, h⟩ := bind_eq_ok.mp h
  cases filter? with
  | none =>
    obtain ⟨_, ⟨⟩, h⟩ := bind_eq_ok.mp h
    obtain ⟨includes, hi, h⟩ := bind_eq_ok.mp h
    cases h
    exact ⟨assoc, m, none, includes, hf, .none, hi, rfl⟩
  | some f =>
    obtain ⟨filter, hfilter, h⟩ := bind_eq_ok.mp h
    obtain ⟨g, hg, rfl⟩ := map_eq_ok.mp hfilter
    obtain ⟨includes, hi, h⟩ := bind_eq_ok.mp h
    cases h
    exact ⟨assoc, m, some g, includes, hf, .some hg, hi, rfl⟩

theorem lowerAll_eq_mapM : lowerAll s parent table ns = ns.mapM (lower s parent table) := by
  induction ns with
  | nil => rfl
  | cons n ns ih => simp [lowerAll, ih, List.mapM_cons]

/-! ## Pages -/

theorem splitPage_eq (pinned : List (List String)) (path : List String) (n : Include) :
    Plan.splitPage pinned path n = { n with separate := true } ∨
    n.separate = false ∧ Plan.splitPage pinned path n =
      { n with includes := Plan.splitPageAll pinned (path ++ [n.name]) n.includes } := by
  cases n
  rw [Plan.splitPage]
  dsimp only
  split
  · exact .inl rfl
  · rename_i h
    simp only [Bool.or_eq_true, not_or, Bool.not_eq_true] at h
    exact .inr ⟨h.1, by rw [h.1]⟩

theorem splitPageAll_eq_map (pinned : List (List String)) (path : List String)
    (ns : List Include) :
    Plan.splitPageAll pinned path ns = ns.map (Plan.splitPage pinned path) := by
  induction ns with
  | nil => rfl
  | cons n ns ih => rw [Plan.splitPageAll, ih, List.map_cons]

/-! ## Columns and joins -/

theorem columnsAll_eq_mapM : columnsAll s parent table key ns =
    List.flatten <$> ns.mapM (columns s parent table key) := by
  induction ns with
  | nil => rfl
  | cons n ns ih => simp [columnsAll, ih, List.mapM_cons]

theorem exists_columns_of_mem {pss : List Sql} {ps : Sql}
    (h : columnsAll s parent table key ns = .ok pss) (hps : ps ∈ pss) :
    ∃ n ∈ ns, ∃ here, columns s parent table key n = .ok here ∧ ps ∈ here := by
  rw [columnsAll_eq_mapM] at h
  obtain ⟨psss, hpsss, rfl⟩ := map_eq_ok.mp h
  obtain ⟨here, hmem, hps⟩ := List.mem_flatten.mp hps
  obtain ⟨n, hn, hhere⟩ := mem_of_mapM hpsss hmem
  exact ⟨n, hn, here, hhere, hps⟩

theorem columns_of_separate (h : n.separate = true) : columns s parent table key n = .ok [] := by
  cases n
  simp only at h
  simp [columns, h, pure, Except.pure]

theorem joinsAll_eq_mapM : joinsAll s parent table ns =
    List.flatten <$> ns.mapM (joins s parent table) := by
  induction ns with
  | nil => rfl
  | cons n ns ih => simp [joinsAll, ih, List.mapM_cons]

theorem joins_of_separate (h : n.separate = true) : joins s parent table n = .ok [] := by
  cases n
  simp only at h
  simp [joins, h, pure, Except.pure]

theorem joins_of_mem {js : List Join} (h : joinsAll s parent table ns = .ok js) (hn : n ∈ ns) :
    ∃ here, joins s parent table n = .ok here ∧ here ⊆ js := by
  rw [joinsAll_eq_mapM] at h
  obtain ⟨jss, hjss, rfl⟩ := map_eq_ok.mp h
  obtain ⟨here, hmem, hhere⟩ := of_mem_mapM hjss hn
  exact ⟨here, hhere, fun _ hj => List.mem_flatten.mpr ⟨here, hmem, hj⟩⟩

theorem exists_joins_of_mem {js : List Join} {j : Join}
    (h : joinsAll s parent table ns = .ok js) (hj : j ∈ js) :
    ∃ n ∈ ns, ∃ here, joins s parent table n = .ok here ∧ j ∈ here ∧ here ⊆ js := by
  rw [joinsAll_eq_mapM] at h
  obtain ⟨jss, hjss, rfl⟩ := map_eq_ok.mp h
  obtain ⟨here, hmem, hj⟩ := List.mem_flatten.mp hj
  obtain ⟨n, hn, hhere⟩ := mem_of_mapM hjss hmem
  exact ⟨n, hn, here, hhere, hj, fun _ hj => List.mem_flatten.mpr ⟨here, hmem, hj⟩⟩

@[simp] theorem required_joinOf {required : Bool} {condition : Option Condition} :
    (joinOf assoc parent m table required condition).required = required := by
  unfold joinOf
  dsimp only
  split <;> rfl

@[simp] theorem name_joinOf {required : Bool} {condition : Option Condition} :
    (joinOf assoc parent m table required condition).name = joinName table [assoc.name] := by
  unfold joinOf
  dsimp only
  split <;> rfl

end RelQuery.Include

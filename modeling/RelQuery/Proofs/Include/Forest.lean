import RelQuery.Proofs.Filter.MergeParts
import RelQuery.Proofs.Include.Planner
import RelQuery.Query

/-!
# Forests

An include tree has one node for each association of each model: siblings have distinct names, and a
node has the target and the kind of the association of its name. So a node is found by the names on
the way to it. Every pass over include trees keeps this, and with it a property of the filters of
all nodes.
-/

namespace RelQuery.Include

/-- A node below `m` that stands for the association of its name, with siblings of distinct names at
every level below it, and filters that have a property on the model they are on. -/
inductive Rooted (s : Schema) (Q : Model → Filter → Prop) : Model → Include → Prop
  | node {m t : Model} {assoc : Association} {n : Include} :
      s.follow m n.name = .ok (assoc, t) → n.target = t.name → n.kind = assoc.kind →
      (∀ f, n.filter = some f → Q t f) → (n.includes.map (·.name)).Nodup →
      (∀ c ∈ n.includes, Rooted s Q t c) → Rooted s Q m n

/-- Nodes below `m` with distinct names. -/
structure Forest (s : Schema) (Q : Model → Filter → Prop) (m : Model) (ns : List Include) :
    Prop where
  names : (ns.map (·.name)).Nodup
  rooted : ∀ n ∈ ns, n.Rooted s Q m

variable {s : Schema} {Q Q' : Model → Filter → Prop} {m t : Model} {assoc : Association}
  {a b n n' : Include} {ns ns' bs : List Include} {hop table : String} {hops path : List String}

namespace Rooted

theorem of_forest (hf : s.follow m n.name = .ok (assoc, t)) (ht : n.target = t.name)
    (hk : n.kind = assoc.kind) (hfilter : ∀ f, n.filter = some f → Q t f)
    (hi : Forest s Q t n.includes) : n.Rooted s Q m :=
  .node hf ht hk hfilter hi.names hi.rooted

theorem exists_follow (h : n.Rooted s Q m) : ∃ assoc t, s.follow m n.name = .ok (assoc, t) := by
  cases h with
  | node hf => exact ⟨_, _, hf⟩

variable (h : n.Rooted s Q m) (hf : s.follow m n.name = .ok (assoc, t))
include h hf

theorem target : n.target = t.name := by
  cases h with
  | node hf' ht =>
    cases hf.symm.trans hf'
    exact ht

theorem kind : n.kind = assoc.kind := by
  cases h with
  | node hf' _ hk =>
    cases hf.symm.trans hf'
    exact hk

theorem filter {f : Filter} (hn : n.filter = some f) : Q t f := by
  cases h with
  | node hf' _ _ hfilter =>
    cases hf.symm.trans hf'
    exact hfilter f hn

theorem includes : Forest s Q t n.includes := by
  cases h with
  | node hf' _ _ _ hnames hi =>
    cases hf.symm.trans hf'
    exact ⟨hnames, hi⟩

end Rooted

theorem Forest.nil : Forest s Q m [] := ⟨List.nodup_nil, List.forall_mem_nil _⟩

theorem Forest.singleton (h : n.Rooted s Q m) : Forest s Q m [n] :=
  ⟨List.pairwise_singleton _ _, List.forall_mem_singleton.mpr h⟩

/-- Nodes below one model are for the same association exactly if they have one name. -/
theorem sameJoin_iff_name (ha : a.Rooted s Q m) (hb : b.Rooted s Q' m) :
    a.sameJoin b = true ↔ a.name = b.name := by
  rw [sameJoin_iff]
  refine and_iff_right_of_imp fun hname => ?_
  obtain ⟨assoc, t, hf⟩ := ha.exists_follow
  rw [ha.target hf, hb.target (hname ▸ hf)]

/-! ## Changing one node -/

/-- A change of the node with a name, or a new node with the name, keeps a forest. -/
theorem Forest.upsert {p : Include → Bool} {change : Include → Except PlanError Include}
    {fresh : Except PlanError Include} (h : upsert p change fresh ns = .ok ns')
    (hns : Forest s Q m ns) (hp : ∀ n ∈ ns, p n = true ↔ n.name = hop)
    (hchange : ∀ n ∈ ns, n.name = hop → ∀ n', change n = .ok n' → n'.name = hop ∧ n'.Rooted s Q m)
    (hfresh : ∀ n', fresh = .ok n' → n'.name = hop ∧ n'.Rooted s Q m) : Forest s Q m ns' := by
  refine ⟨?_, forall_upsert h hns.rooted (fun n hn hpn n' hn' => ?_) fun n' hn' => ?_⟩
  · rcases upsert_eq_ok h with ⟨l, n, r, n', rfl, -, hn, hc, rfl⟩ | ⟨hall, n', hn, rfl⟩
    · have hname := (hp n (by simp)).mp hn
      have hnames := hns.names
      rw [List.map_append, List.map_cons] at hnames ⊢
      rwa [(hchange n (by simp) hname n' hc).1, ← hname]
    · rw [List.map_append, List.map_singleton, (hfresh n' hn).1, List.nodup_append]
      refine ⟨hns.names, List.pairwise_singleton _ _, fun name hname hop' hhop' heq => ?_⟩
      obtain ⟨c, hc, rfl⟩ := List.mem_map.mp hname
      cases List.mem_singleton.mp hhop'
      exact Bool.eq_false_iff.mp (hall c hc) ((hp c hc).mpr heq)
  · exact (hchange n hn ((hp n hn).mp hpn) n' hn').2
  · exact (hfresh n' hn').2

theorem names_modifyFirst {p : Include → Bool} {change : Include → Include}
    (h : ∀ n, (change n).name = n.name) :
    (modifyFirst p change ns).map (·.name) = ns.map (·.name) := by
  induction ns with
  | nil => rfl
  | cons n ns ih =>
    rw [modifyFirst]
    split
    · rw [List.map_cons, List.map_cons, h n]
    · rw [List.map_cons, List.map_cons, ih]

/-! ## Paths -/

theorem Rooted.hopNode (h : s.follow m hop = .ok (assoc, t)) : (hopNode assoc t).Rooted s Q m := by
  rw [← Schema.name_of_follow h] at h
  exact .of_forest h rfl rfl nofun .nil

theorem Forest.ensurePath {required : Bool} (h : ensurePath s required hops m ns = .ok ns')
    (hns : Forest s Q m ns) : Forest s Q m ns' := by
  induction hops generalizing m ns ns' with
  | nil =>
    cases h
    exact hns
  | cons hop hops ih =>
    obtain ⟨assoc, t, hf, h⟩ := ensurePath_cons_eq_ok h
    have hfresh : (hopNode assoc t).Rooted s Q m := .hopNode hf
    have hext : ∀ n : Include, n.name = hop → n.Rooted s Q m → ∀ n',
        extendNode s required hops assoc t n = .ok n' → n'.name = hop ∧ n'.Rooted s Q m := by
      intro n hname hn n' h
      obtain ⟨-, includes, hi, rfl⟩ := extendNode_eq_ok h
      have hf : s.follow m n.name = .ok (assoc, t) := hname ▸ hf
      exact ⟨hname, .of_forest hf (hn.target hf) (hn.kind hf) (fun f => hn.filter hf)
        (ih hi (hn.includes hf))⟩
    refine hns.upsert h (fun n hn => ?_) (fun n hn hname => hext n hname (hns.rooted n hn))
      (hext _ (Schema.name_of_follow hf) hfresh)
    rw [sameJoin_iff_name hfresh (hns.rooted n hn), eq_comm]
    exact Eq.congr_right (Schema.name_of_follow hf)

theorem Forest.attachFilter {f : Filter} (h : attachFilter s m f ns = .ok ns')
    (hns : Forest s Q m ns) : Forest s Q m ns' :=
  attachFilter_preserves (fun _ _ _ _ hns h => hns.ensurePath h) h hns

theorem Forest.requireHops (hns : Forest s Q m ns) : Forest s Q m (requireHops hops ns) := by
  induction hops generalizing m ns with
  | nil => exact hns
  | cons hop hops ih =>
    have hnames : (Include.requireHops (hop :: hops) ns).map (·.name) = ns.map (·.name) :=
      names_modifyFirst fun _ => rfl
    refine ⟨by rw [hnames]; exact hns.names, forall_modifyFirst hns.rooted fun n hn => ?_⟩
    obtain ⟨assoc, t, hf⟩ := hn.exists_follow
    exact .of_forest hf (hn.target hf) (hn.kind hf) (fun f => hn.filter hf) (ih (hn.includes hf))

/-! ## Merges -/

section
variable (hQ : ∀ {t f g h}, Q t f → Q t g → Filter.merge? (some f) (some g) = some h → Q t h)
include hQ

omit hQ in
theorem Forest.mergeAll_of
    (H : ∀ b ∈ bs, ∀ {a n}, merge a b = .ok n → a.name = b.name → a.Rooted s Q m →
      b.Rooted s Q m → n.Rooted s Q m)
    (h : mergeAll ns bs = .ok ns') (hns : Forest s Q m ns) (hbs : Forest s Q m bs) :
    Forest s Q m ns' := by
  obtain ⟨-, hbs⟩ := hbs
  induction bs generalizing ns with
  | nil =>
    cases h
    exact hns
  | cons b bs ih =>
    obtain ⟨ns₁, h₁, h⟩ := mergeAll_cons_eq_ok h
    rw [List.forall_mem_cons] at hbs
    refine ih (fun b hb => H b (List.mem_cons_of_mem _ hb)) h ?_ hbs.2
    refine hns.upsert h₁ (fun a ha => sameJoin_iff_name (hns.rooted a ha) hbs.1)
      (fun a ha hname n hn => ?_) fun n hn => ?_
    · refine ⟨?_, H b List.mem_cons_self hn hname (hns.rooted a ha) hbs.1⟩
      obtain ⟨includes, limit, offset, -, -, -, rfl⟩ := merge_eq_ok hn
      exact hname
    · cases hn
      exact ⟨rfl, hbs.1⟩

theorem Rooted.merge (h : merge a b = .ok n) (hname : a.name = b.name) (ha : a.Rooted s Q m)
    (hb : b.Rooted s Q m) : n.Rooted s Q m := by
  induction b generalizing m a n with
  | node b ih =>
    obtain ⟨includes, limit, offset, hi, -, -, rfl⟩ := merge_eq_ok h
    obtain ⟨assoc, t, hf⟩ := ha.exists_follow
    have hf' := hname ▸ hf
    refine .of_forest hf (ha.target hf) (ha.kind hf) ?_ ?_
    · exact Filter.forall_merge? hQ (fun f => ha.filter hf) fun f => hb.filter hf'
    · exact .mergeAll_of (fun c hc _ _ h hname ha hb => ih c hc h hname ha hb) hi (ha.includes hf)
        (hb.includes hf')

theorem Forest.mergeAll (h : mergeAll ns bs = .ok ns') (hns : Forest s Q m ns)
    (hbs : Forest s Q m bs) : Forest s Q m ns' :=
  .mergeAll_of (fun _ _ _ _ h hname ha hb => .merge hQ h hname ha hb) h hns hbs

end

/-! ## Pages and lowering -/

theorem name_splitPage {pinned : List (List String)} :
    (Plan.splitPage pinned path n).name = n.name := by
  rcases splitPage_eq pinned path n with h | ⟨-, h⟩ <;> rw [h]

theorem names_splitPageAll {pinned : List (List String)} :
    (Plan.splitPageAll pinned path ns).map (·.name) = ns.map (·.name) := by
  rw [splitPageAll_eq_map, List.map_map]
  exact List.map_congr_left fun n _ => name_splitPage

theorem Rooted.splitPage {pinned : List (List String)} (h : n.Rooted s Q m) :
    (Plan.splitPage pinned path n).Rooted s Q m := by
  induction h generalizing path with
  | @node m t assoc n hf ht hk hfilter hnames hi ih =>
    rcases splitPage_eq pinned path n with heq | ⟨-, heq⟩
    · rw [heq]
      exact .node hf ht hk hfilter hnames hi
    · rw [heq]
      refine .node hf ht hk hfilter (by rwa [names_splitPageAll]) fun c hc => ?_
      rw [splitPageAll_eq_map] at hc
      obtain ⟨c, hc', rfl⟩ := List.mem_map.mp hc
      exact ih c hc'

theorem Forest.splitPageAll {pinned : List (List String)} (hns : Forest s Q m ns) :
    Forest s Q m (Plan.splitPageAll pinned path ns) := by
  refine ⟨by rw [names_splitPageAll]; exact hns.names, fun n hn => ?_⟩
  rw [splitPageAll_eq_map] at hn
  obtain ⟨n, hn', rfl⟩ := List.mem_map.mp hn
  exact (hns.rooted n hn').splitPage

theorem names_lowerAll (h : lowerAll s m table ns = .ok ns') :
    ns'.map (·.name) = ns.map (·.name) := by
  rw [lowerAll_eq_mapM] at h
  refine map_of_mapM h fun n _ n' hn => ?_
  obtain ⟨assoc, t, filter, includes, -, -, -, rfl⟩ := lower_eq_ok hn
  rfl

section
variable (hQ : ∀ {t f g table}, Q t f → f.lower s t table = .ok g → Q' t g)
include hQ

theorem Rooted.lower (h : lower s m table n = .ok n') (hn : n.Rooted s Q m) :
    n'.Rooted s Q' m := by
  induction hn generalizing table n' with
  | @node m t assoc n hf ht hk hfilter hnames hi ih =>
    obtain ⟨assoc', t', filter, includes, hf', hlower, hi', rfl⟩ := lower_eq_ok h
    cases hf.symm.trans hf'
    refine .node hf ht hk (fun g hg => ?_) (by rwa [names_lowerAll hi']) fun c hc => ?_
    · obtain ⟨f, hfn, hg⟩ := exists_left_of_rel hlower hg
      exact hQ (hfilter f hfn) hg
    · rw [lowerAll_eq_mapM] at hi'
      obtain ⟨c', hc', h⟩ := mem_of_mapM hi' hc
      exact ih c' hc' h

theorem Forest.lowerAll (h : lowerAll s m table ns = .ok ns') (hns : Forest s Q m ns) :
    Forest s Q' m ns' := by
  refine ⟨by rw [names_lowerAll h]; exact hns.names, fun n hn => ?_⟩
  rw [lowerAll_eq_mapM] at h
  obtain ⟨n', hn', h⟩ := mem_of_mapM h hn
  exact (hns.rooted n' hn').lower hQ h

end

/-! ## Levels -/

/-- A property that filters have from the start, and keep when they are combined and merged. -/
structure FilterBuilt (s : Schema) (Q : Model → Filter → Prop) : Prop where
  lacks : ∀ {t assoc target}, s.follow t assoc.name = .ok (assoc, target) →
    Q t (Query.lacks assoc target)
  compile : ∀ {t value f}, s.model t.name = .ok t → Filter.compile s t.name value = .ok f → Q t f
  all : ∀ {t fs}, (∀ f ∈ fs, Q t f) → Q t (Filter.all fs)
  merge : ∀ {t f g h}, Q t f → Q t g → Filter.merge? (some f) (some g) = some h → Q t h

/-- A property that filters keep when they are lowered, too. -/
structure FilterClosed (s : Schema) (Q : Model → Filter → Prop) : Prop extends
    FilterBuilt s Q where
  raw : ∀ {t sql}, Q t (.raw sql)
  lower : ∀ {t f g table}, Q t f → f.lower s t table = .ok g → Q t g

theorem filterClosed_true (s : Schema) : FilterClosed s fun _ _ => True where
  lacks _ := trivial
  compile _ _ := trivial
  all _ := trivial
  merge _ _ _ := trivial
  raw := trivial
  lower _ _ := trivial

variable {info : ExecutionInfo} {level level' : Level} {field : Field}
  {planTarget : Model → List Field → Except PlanError Level}

section
variable (hQ : FilterBuilt s Q)
include hQ

theorem Rooted.applyArguments {args : Arguments} (h : applyArguments s t n args = .ok n')
    (hf : s.follow m n.name = .ok (assoc, t)) (hn : n.Rooted s Q m) : n'.Rooted s Q m := by
  unfold Include.applyArguments at h
  split at h
  · obtain ⟨n₁, ⟨⟩, h⟩ := bind_eq_ok.mp h
    cases h
    exact .of_forest hf (hn.target hf) (hn.kind hf) (fun f => hn.filter hf) (hn.includes hf)
  · obtain ⟨f, hcompile, h⟩ := bind_eq_ok.mp h
    obtain ⟨includes, hi, h⟩ := bind_eq_ok.mp h
    obtain ⟨n₁, ⟨⟩, h⟩ := bind_eq_ok.mp h
    cases h
    refine .of_forest hf (hn.target hf) (hn.kind hf) (fun g hg => ?_)
      ((hn.includes hf).attachFilter hi)
    cases Filter.proper?_eq_some hg
    exact hQ.compile (Schema.model_name (Schema.follow_eq_ok.mp hf).2) hcompile

theorem Rooted.ofField (h : ofField s info planTarget assoc field = .ok n)
    (hassoc : m.association? assoc.name = some assoc)
    (H : ∀ {t fields level}, planTarget t fields = .ok level → Forest s Q t level.includes) :
    n.Rooted s Q m := by
  obtain ⟨t, ht, h⟩ := bind_eq_ok.mp h
  obtain ⟨fields, -, h⟩ := bind_eq_ok.mp h
  obtain ⟨level, hlevel, h⟩ := bind_eq_ok.mp h
  obtain ⟨args, -, h⟩ := bind_eq_ok.mp h
  have hf : s.follow m assoc.name = .ok (assoc, t) := Schema.follow_eq_ok.mpr ⟨hassoc, ht⟩
  cases args with
  | none =>
    cases h
    exact .of_forest hf rfl rfl nofun (H hlevel)
  | some args => exact .applyArguments hQ h hf (.of_forest hf rfl rfl nofun (H hlevel))

/-- An association that is taken into a level is merged into the nodes that are there. -/
theorem Level.forest_addAssociation
    (h : level.addAssociation s info planTarget m assoc field = .ok level')
    (hassoc : m.association? assoc.name = some assoc)
    (H : ∀ {t fields level}, planTarget t fields = .ok level → Forest s Q t level.includes)
    (hl : Forest s Q m level.includes) : Forest s Q m level'.includes := by
  unfold Level.addAssociation at h
  dsimp only at h
  split at h
  · cases h
    exact hl
  · split at h
    · cases h
      exact hl
    · obtain ⟨n, hn, h⟩ := bind_eq_ok.mp h
      obtain ⟨includes, hi, h⟩ := bind_eq_ok.mp h
      cases h
      exact .mergeAll hQ.merge hi hl (.singleton (.ofField hQ hn hassoc H))

theorem Level.forest_planLevel {depth : Nat} {fields : List Field}
    (h : planLevel s info depth m fields = .ok level) : Forest s Q m level.includes := by
  induction depth generalizing m fields level with
  | zero => cases h
  | succ depth ih =>
    refine foldlM_preserves (P := fun level => Forest s Q m level.includes)
      (fun level field _ level' hl h => ?_) .nil h
    unfold Level.addField at h
    split at h
    · cases h
      exact hl
    · split at h
      · rename_i hassoc
        exact forest_addAssociation hQ h (Model.association?_of_field hassoc) ih hl
      · cases h
        exact hl

end

theorem model_of_plan {model : String} {selections : List Selection} {p : PartialPlan}
    (hm : s.model model = .ok m)
    (h : Include.plan s info model selections none [] = .ok p) : s.model p.model = .ok m := by
  obtain ⟨n, hn, h⟩ := bind_eq_ok.mp h
  cases hm.symm.trans hn
  obtain ⟨fields, -, h⟩ := bind_eq_ok.mp h
  obtain ⟨level, -, h⟩ := bind_eq_ok.mp h
  cases h
  exact Schema.model_name hm

/-- The plan of a selection is a forest. -/
theorem forest_of_plan {model : String} {selections : List Selection} {p : PartialPlan}
    (hQ : FilterBuilt s Q) (hm : s.model model = .ok m)
    (h : Include.plan s info model selections none [] = .ok p) : Forest s Q m p.includes := by
  obtain ⟨n, hn, h⟩ := bind_eq_ok.mp h
  cases hm.symm.trans hn
  obtain ⟨fields, -, h⟩ := bind_eq_ok.mp h
  obtain ⟨level, hlevel, h⟩ := bind_eq_ok.mp h
  cases h
  exact Level.forest_planLevel hQ hlevel

end RelQuery.Include

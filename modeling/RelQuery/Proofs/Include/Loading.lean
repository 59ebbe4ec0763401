import RelQuery.Proofs.Include.Nodes
import RelQuery.Proofs.Include.Reads

/-!
# Merging nodes that are loaded alike

A merge of a node that is joined with one that is loaded separately is loaded separately, and what
led through the joined one is cut off. If two trees load alike the nodes that they both have, paths
through joined nodes of either are such paths in the merge, and all filters read what they may.
-/

namespace RelQuery.Include

/-- The nodes that two trees both have are joined in both, or loaded separately in both. -/
def SameLoading : List Include → List Include → Prop :=
  AtCommonPaths fun a b => a.separate = b.separate

variable {s : Schema} {Q Q' : Model → Filter → Prop} {m t : Model} {assoc : Association}
  {a b n : Include} {ns ns' bs : List Include} {hop table : String} {hops path : List String}
  {hopss : List (List String)} {inner : Bool}

/-! ## Joined paths as nodes on the way -/

theorem Joined.outer (hj : Joined s inner m ns hops) : Joined s false m ns hops := by
  induction hj with
  | nil => exact .nil
  | cons hf hfind hs _ _ ih => exact .cons hf hfind hs nofun ih

/-- Every node on the way along the hops is there, and joined. -/
def JoinedAlong (ns : List Include) (hops : List String) : Prop :=
  ∀ path, path ≠ [] → path <+: hops → ∃ n, bareAt? path ns = some n ∧ n.separate = false

theorem joinedAlong_cons : JoinedAlong ns (hop :: hops) ↔
    ∃ n, child? hop ns = some n ∧ n.separate = false ∧ JoinedAlong n.includes hops := by
  constructor
  · intro h
    obtain ⟨_, hn, hs⟩ := h [hop] (List.cons_ne_nil _ _) ⟨hops, rfl⟩
    obtain ⟨n, hchild, rfl⟩ := Option.map_eq_some_iff.mp hn
    have hn : child? hop ns = some n := hchild
    refine ⟨n, hn, hs, fun path hne hpath => ?_⟩
    obtain ⟨next, rest, rfl⟩ := List.exists_cons_of_ne_nil hne
    have hbelow := h (hop :: next :: rest) (List.cons_ne_nil _ _)
      (List.cons_prefix_cons.mpr ⟨rfl, hpath⟩)
    rwa [bareAt?_cons_cons, hn, Option.bind_some] at hbelow
  · rintro ⟨n, hn, hs, h⟩ path hne hpath
    obtain ⟨name, rest, rfl⟩ := List.exists_cons_of_ne_nil hne
    obtain ⟨rfl, hrest⟩ := List.cons_prefix_cons.mp hpath
    cases rest with
    | nil => exact ⟨n.bare, congrArg (Option.map bare) hn, hs⟩
    | cons next rest =>
      rw [bareAt?_cons_cons, hn, Option.bind_some]
      exact h (next :: rest) (List.cons_ne_nil _ _) hrest

theorem find?_hopNode (hns : Forest s Q m ns) (hf : s.follow m hop = .ok (assoc, t)) :
    ns.find? (hopNode assoc t).sameJoin = child? hop ns := by
  have hfind := find?_sameJoin hns (Rooted.hopNode (Q := Q) hf)
  rw [show (hopNode assoc t).name = hop from Schema.name_of_follow hf] at hfind
  rw [← hfind]
  congr 1
  funext n
  rw [Bool.eq_iff_iff, sameJoin_iff, sameJoin_iff, eq_comm, eq_comm (a := n.name)]

/-- In a forest a path is joined if the schema has it and its nodes are joined. -/
theorem joined_iff (hns : Forest s Q m ns) : Joined s false m ns hops ↔
    (∃ t, s.modelAt m hops = .ok t) ∧ JoinedAlong ns hops := by
  induction hops generalizing m ns with
  | nil =>
    have halong : JoinedAlong ns [] := fun path hne hpath => (hne (List.prefix_nil.mp hpath)).elim
    exact iff_of_true .nil ⟨⟨m, rfl⟩, halong⟩
  | cons hop hops ih =>
    rw [joinedAlong_cons]
    constructor
    · rintro (_ | ⟨hf, hfind, hs, -, hj⟩)
      rw [find?_hopNode hns hf] at hfind
      have hf' := (name_of_child? hfind).symm ▸ hf
      obtain ⟨⟨t, ht⟩, halong⟩ := (ih ((hns.rooted_of_child? hfind).includes hf')).mp hj
      exact ⟨⟨t, Schema.modelAt_cons.mpr ⟨_, _, hf, ht⟩⟩, _, hfind, hs, halong⟩
    · rintro ⟨⟨t, ht⟩, n, hn, hs, halong⟩
      obtain ⟨assoc, target, hf, ht⟩ := Schema.modelAt_cons.mp ht
      have hf' := (name_of_child? hn).symm ▸ hf
      have hj := (ih ((hns.rooted_of_child? hn).includes hf')).mpr ⟨⟨t, ht⟩, halong⟩
      exact .cons hf ((find?_hopNode hns hf).trans hn) hs nofun hj

/-! ## After a merge -/

/-- What is joined along the hops in one of two trees is so in their merge. -/
theorem joinedAlong_mergeAll (hns : Forest s Q m ns) (hbs : Forest s Q' m bs)
    (h : mergeAll ns bs = .ok ns') (hl : SameLoading ns bs)
    (hj : JoinedAlong ns hops ∨ JoinedAlong bs hops) : JoinedAlong ns' hops := by
  intro path hne hpath
  rw [bareAt?_mergeAll hns hbs h]
  have hsame := hl path
  rcases hj with hj | hj
  · obtain ⟨a, ha, hs⟩ := hj path hne hpath
    rw [ha] at hsame ⊢
    cases hb : bareAt? path bs with
    | none => exact ⟨a, rfl, hs⟩
    | some b => exact ⟨_, rfl, by simp [mergeBare, ← hsame a b rfl hb, hs]⟩
  · obtain ⟨b, hb, hs⟩ := hj path hne hpath
    rw [hb] at hsame ⊢
    cases ha : bareAt? path ns with
    | none => exact ⟨b, rfl, hs⟩
    | some a => exact ⟨_, rfl, by simp [mergeBare, hsame a b ha rfl, hs]⟩

theorem joined_mergeAll (hns : Forest s Q m ns) (hbs : Forest s Q' m bs)
    (h : mergeAll ns bs = .ok ns') (hl : SameLoading ns bs)
    (hj : Joined s false m ns hops ∨ Joined s false m bs hops) : Joined s false m ns' hops := by
  have hns' := forest_mergeAll hns hbs h
  rw [joined_iff hns, joined_iff hbs, ← and_or_left] at hj
  rw [joined_iff hns']
  exact ⟨hj.1, joinedAlong_mergeAll hns hbs h hl hj.2⟩

theorem joined_requireHops (hns : Forest s Q m ns) (hj : Joined s false m ns path) :
    Joined s false m (requireHops hops ns) path := by
  rw [joined_iff hns] at hj
  rw [joined_iff hns.requireHops]
  refine ⟨hj.1, fun path hne hpath => ?_⟩
  obtain ⟨n, hn, hs⟩ := hj.2 path hne hpath
  rw [bareAt?_requireHops, hn]
  exact ⟨_, rfl, hs⟩

theorem joined_requireAll (hns : Forest s Q m ns) (hj : Joined s false m ns path) :
    Joined s false m (requireAll hopss ns) path := by
  induction hopss generalizing ns with
  | nil => exact hj
  | cons hops hopss ih => exact ih hns.requireHops (joined_requireHops hns hj)

/-! ## What filters read after a merge -/

theorem reads_mergeAll_of
    (H : ∀ b ∈ bs, ∀ {a n}, merge a b = .ok n → a.name = b.name → a.Rooted s Q m →
      b.Rooted s Q' m → a.separate = b.separate → SameLoading a.includes b.includes →
      a.Reads s (ThroughJoins s) m table → b.Reads s (ThroughJoins s) m table →
      n.Reads s (ThroughJoins s) m table)
    (hns : Forest s Q m ns) (hbs : Forest s Q' m bs) (h : mergeAll ns bs = .ok ns')
    (hl : SameLoading ns bs) (hrns : ∀ n ∈ ns, n.Reads s (ThroughJoins s) m table)
    (hrbs : ∀ b ∈ bs, b.Reads s (ThroughJoins s) m table) :
    ∀ n ∈ ns', n.Reads s (ThroughJoins s) m table := by
  intro n hn
  have hns' := forest_mergeAll hns hbs h
  have hchild := child?_mergeAll hns hbs h n.name
  rw [hns'.child?_of_mem hn] at hchild
  generalize ha : child? n.name ns = a?, hb : child? n.name bs = b? at hchild
  cases hchild with
  | left => exact hrns n (mem_of_child? ha)
  | right => exact hrbs n (mem_of_child? hb)
  | @both a b _ hmerge =>
    exact H b (mem_of_child? hb) hmerge ((name_of_child? ha).trans (name_of_child? hb).symm)
      (hns.rooted_of_child? ha) (hbs.rooted_of_child? hb) (hl.here ha hb) (hl.below ha hb)
      (hrns a (mem_of_child? ha)) (hrbs b (mem_of_child? hb))

theorem Reads.merge (h : merge a b = .ok n) (hname : a.name = b.name) (ha : a.Rooted s Q m)
    (hb : b.Rooted s Q' m) (hsep : a.separate = b.separate)
    (hl : SameLoading a.includes b.includes) (hra : a.Reads s (ThroughJoins s) m table)
    (hrb : b.Reads s (ThroughJoins s) m table) : n.Reads s (ThroughJoins s) m table := by
  induction b generalizing m a n table with
  | node b ih =>
    obtain ⟨includes, limit, offset, hi, -, -, rfl⟩ := merge_eq_ok h
    obtain ⟨assoc, t, hf⟩ := ha.exists_follow
    have hf' := hname ▸ hf
    have hfa := ha.includes hf
    have hfb := hb.includes hf'
    -- The statement calls the model of the merged node what it called that of either side.
    have hown : b.ownName t table = a.ownName t table := by rw [ownName, ownName, hname, hsep]
    have hfilter : ∀ f, b.filter = some f →
        f.Reads s t (a.ownName t table) (ThroughJoins s t b.includes) :=
      fun f hn => hown ▸ hrb.filter hf' hn
    have hincludes : ∀ c ∈ b.includes, c.Reads s (ThroughJoins s) t (a.ownName t table) :=
      fun c hc => hown ▸ hrb.includes hf' hc
    have hboth : (a.separate || b.separate) = a.separate := by simp [← hsep]
    simp only [hboth]
    refine .node hf (fun f hn => ?_) ?_
    · refine .merge? (fun f hn => (hra.filter hf hn).mono fun hops hh => ?_)
        (fun f hn => (hfilter f hn).mono fun hops hh => ?_) hn
      · exact joined_mergeAll hfa hfb hi hl (.inl hh)
      · exact joined_mergeAll hfa hfb hi hl (.inr hh)
    · exact reads_mergeAll_of
        (fun c hc _ _ h hname ha hb hsep hl hra hrb => ih c hc h hname ha hb hsep hl hra hrb)
        hfa hfb hi hl (fun c hc => hra.includes hf hc) hincludes

/-- If the filters of two trees lead through joined nodes, so do those of their merge. -/
theorem reads_mergeAll (hns : Forest s Q m ns) (hbs : Forest s Q' m bs)
    (h : mergeAll ns bs = .ok ns') (hl : SameLoading ns bs)
    (hrns : ∀ n ∈ ns, n.Reads s (ThroughJoins s) m table)
    (hrbs : ∀ b ∈ bs, b.Reads s (ThroughJoins s) m table) :
    ∀ n ∈ ns', n.Reads s (ThroughJoins s) m table :=
  reads_mergeAll_of (fun _ _ _ _ h hname ha hb hsep hl => Reads.merge h hname ha hb hsep hl)
    hns hbs h hl hrns hrbs

theorem reads_requireHops (hns : Forest s Q m ns)
    (h : ∀ n ∈ ns, n.Reads s (ThroughJoins s) m table) :
    ∀ n ∈ requireHops hops ns, n.Reads s (ThroughJoins s) m table := by
  induction hops generalizing m ns table with
  | nil => exact h
  | cons hop hops ih =>
    have hboth : ∀ n ∈ requireHops (hop :: hops) ns, n.Rooted s Q m ∧
        n.Reads s (ThroughJoins s) m table := by
      refine forall_modifyFirst (fun n hn => ⟨hns.rooted n hn, h n hn⟩) fun n hn => ?_
      obtain ⟨hroot, hreads⟩ := hn
      obtain ⟨assoc, t, hf⟩ := hroot.exists_follow
      have hi := hroot.includes hf
      refine ⟨.of_forest hf (hroot.target hf) (hroot.kind hf) (fun f => hroot.filter hf)
        hi.requireHops, .node hf (fun f hn => ?_) (ih hi fun c hc => hreads.includes hf hc)⟩
      exact (hreads.filter hf hn).mono fun path hj => joined_requireHops hi hj
    exact fun n hn => (hboth n hn).2

/-- Inner joins lead where outer ones do. -/
theorem reads_requireAll (hns : Forest s Q m ns)
    (h : ∀ n ∈ ns, n.Reads s (ThroughJoins s) m table) :
    ∀ n ∈ requireAll hopss ns, n.Reads s (ThroughJoins s) m table := by
  induction hopss generalizing ns with
  | nil => exact h
  | cons hops hopss ih => exact ih hns.requireHops (reads_requireHops hns h)

end RelQuery.Include

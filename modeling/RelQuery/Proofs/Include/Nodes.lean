import Mathlib.Data.List.Forall2
import RelQuery.Proofs.Include.Forest

/-!
# Nodes at paths

A node of a forest is found by the names on the way to it. What a merge puts at a path is the merge
of what its sides have there, and marking inner joins changes only the nodes on the marked paths. So
merges of whole trees are compared path by path.
-/

namespace RelQuery

/-! ## Modifiers -/

section
variable {α : Type} {a b c : Option α}

/-- Two modifiers do not differ if both are given. -/
def Compatible (a b : Option α) : Prop := ∀ x, a = some x → ∀ y, b = some y → x = y

theorem Compatible.symm (h : Compatible a b) : Compatible b a :=
  fun x hx y hy => (h y hy x hx).symm

theorem compatible_self : Compatible a a := fun _ hx _ hy => Option.some.inj (hx.symm.trans hy)

theorem Compatible.or_comm (h : Compatible a b) : a.or b = b.or a := by
  cases a with
  | none => simp
  | some x =>
    cases b with
    | none => simp
    | some y => simp [h x rfl y rfl]

theorem compatible_or_left (h : Compatible a b) :
    Compatible (a.or b) c ↔ Compatible a c ∧ Compatible b c := by
  cases a with
  | none => simp [Compatible]
  | some x =>
    cases b with
    | none => simp [Compatible]
    | some y => simp [h x rfl y rfl]

/-- Compatible modifiers agree on the one that is given. -/
theorem agree_eq_ok [DecidableEq α] {modifier : Modifier} :
    agree modifier a b = .ok c ↔ Compatible a b ∧ c = a.or b := by
  cases a with
  | none => simp [agree, Compatible, eq_comm]
  | some x =>
    cases b with
    | none => simp [agree, Compatible, eq_comm]
    | some y =>
      by_cases h : x = y
      · simp [agree, Compatible, h, eq_comm]
      · simp [agree, Compatible, h]

end

namespace Include

variable {s : Schema} {Q Q' : Model → Filter → Prop} {m t : Model} {assoc : Association}
  {a b n n' : Include} {ns ns' bs : List Include} {hop name : String} {hops path : List String}

/-! ## Finding nodes -/

/-- The first node with a name. -/
def child? (name : String) (ns : List Include) : Option Include := ns.find? (·.name == name)

/-- The node that a path of names leads to. -/
def nodeAt? : List String → List Include → Option Include
  | [], _ => none
  | [name], ns => child? name ns
  | name :: next :: rest, ns => (child? name ns).bind fun n => nodeAt? (next :: rest) n.includes

theorem mem_of_child? (h : child? name ns = some n) : n ∈ ns := List.mem_of_find?_eq_some h

theorem name_of_child? (h : child? name ns = some n) : n.name = name := by
  simpa using List.find?_some h

theorem child?_eq_none : child? name ns = none ↔ name ∉ ns.map (·.name) := by
  simp [child?]

theorem child?_cons : child? name (n :: ns) = if n.name = name then some n else child? name ns := by
  by_cases h : n.name = name <;> simp [child?, h]

theorem child?_append_of_ne {l r : List Include} (h : ∀ c ∈ l, c.name ≠ name) :
    child? name (l ++ r) = child? name r := by
  have hl : child? name l = none := List.find?_eq_none.mpr fun c hc => by simpa using h c hc
  unfold child? at hl ⊢
  rw [List.find?_append, hl, Option.none_or]

theorem Forest.child?_of_mem (hns : Forest s Q m ns) (h : n ∈ ns) : child? n.name ns = some n := by
  obtain ⟨hnames, -⟩ := hns
  induction ns with
  | nil => cases h
  | cons c ns ih =>
    rw [List.map_cons, List.nodup_cons] at hnames
    rw [child?_cons]
    rcases List.mem_cons.mp h with rfl | h
    · exact if_pos rfl
    · have hne : c.name ≠ n.name := fun heq =>
        hnames.1 (heq ▸ List.mem_map_of_mem (f := Include.name) h)
      rw [if_neg hne]
      exact ih h hnames.2

theorem Forest.rooted_of_child? (hns : Forest s Q m ns) (h : child? name ns = some n) :
    n.Rooted s Q m :=
  hns.rooted n (mem_of_child? h)

theorem Rooted.weaken (h : n.Rooted s Q m) : n.Rooted s (fun _ _ => True) m := by
  induction h with
  | node hf ht hk _ hnames _ ih => exact .node hf ht hk (fun _ _ => trivial) hnames ih

theorem Forest.weaken (hns : Forest s Q m ns) : Forest s (fun _ _ => True) m ns :=
  ⟨hns.names, fun n hn => (hns.rooted n hn).weaken⟩

theorem forest_mergeAll (hns : Forest s Q m ns) (hbs : Forest s Q' m bs)
    (h : mergeAll ns bs = .ok ns') : Forest s (fun _ _ => True) m ns' :=
  .mergeAll (fun _ _ _ => trivial) h hns.weaken hbs.weaken

/-! ### After a change of one node -/

section
variable {p : Include → Bool} {change : Include → Except PlanError Include}
  {fresh : Except PlanError Include} (h : upsert p change fresh ns = .ok ns')
  (hp : ∀ n ∈ ns, p n = true ↔ n.name = hop)
include h hp

theorem child?_upsert_self
    (hchange : ∀ n ∈ ns, n.name = hop → ∀ n', change n = .ok n' → n'.name = hop)
    (hfresh : ∀ n', fresh = .ok n' → n'.name = hop) :
    ∃ n', child? hop ns' = some n' ∧
      ((∃ n, child? hop ns = some n ∧ change n = .ok n') ∨
        child? hop ns = none ∧ fresh = .ok n') := by
  rcases upsert_eq_ok h with ⟨l, n, r, n', rfl, hl, hn, hc, rfl⟩ | ⟨hall, n', hn, rfl⟩
  · have hne : ∀ c ∈ l, c.name ≠ hop := fun c hcl heq =>
      Bool.eq_false_iff.mp (hl c hcl) ((hp c (by simp [hcl])).mpr heq)
    have hname := (hp n (by simp)).mp hn
    refine ⟨n', ?_, .inl ⟨n, ?_, hc⟩⟩
    · rw [child?_append_of_ne hne, child?_cons, if_pos (hchange n (by simp) hname n' hc)]
    · rw [child?_append_of_ne hne, child?_cons, if_pos hname]
  · have hne : ∀ c ∈ ns, c.name ≠ hop := fun c hc heq =>
      Bool.eq_false_iff.mp (hall c hc) ((hp c hc).mpr heq)
    refine ⟨n', ?_, .inr ⟨?_, hn⟩⟩
    · rw [child?_append_of_ne hne, child?_cons, if_pos (hfresh n' hn)]
    · rw [← List.append_nil ns, child?_append_of_ne hne]
      rfl

theorem child?_upsert_of_ne
    (hchange : ∀ n ∈ ns, n.name = hop → ∀ n', change n = .ok n' → n'.name = hop)
    (hfresh : ∀ n', fresh = .ok n' → n'.name = hop) (hne : name ≠ hop) :
    child? name ns' = child? name ns := by
  rcases upsert_eq_ok h with ⟨l, n, r, n', rfl, -, hn, hc, rfl⟩ | ⟨-, n', hn, rfl⟩
  · have hname := (hp n (by simp)).mp hn
    have hname' := hchange n (by simp) hname n' hc
    unfold child?
    rw [List.find?_append, List.find?_append, List.find?_cons_of_neg, List.find?_cons_of_neg]
    · simpa [hname] using hne.symm
    · simpa [hname'] using hne.symm
  · unfold child?
    rw [List.find?_append, List.find?_cons_of_neg]
    · simp
    · simpa [hfresh n' hn] using hne.symm

end

/-! ## Merges -/

/-- A node without those below it. -/
def bare (n : Include) : Include := { n with includes := [] }

/-- The merge of two nodes without those below them, whose modifiers are compatible. -/
def mergeBare (a b : Include) : Include :=
  { a with
    attributes := b.attributes.foldl addName a.attributes
    filter := Filter.merge? a.filter b.filter
    includes := []
    required := a.required && b.required
    limit := a.limit.or b.limit
    offset := a.offset.or b.offset
    separate := a.separate || b.separate }

/-- The pages of two nodes do not differ if both are given. -/
structure SamePage (a b : Include) : Prop where
  limit : Compatible a.limit b.limit
  offset : Compatible a.offset b.offset

theorem merge_spec (h : merge a b = .ok n) : mergeAll a.includes b.includes = .ok n.includes ∧
    SamePage a b ∧ n.bare = mergeBare a.bare b.bare := by
  obtain ⟨includes, limit, offset, hi, hlimit, hoffset, rfl⟩ := merge_eq_ok h
  obtain ⟨hl, rfl⟩ := agree_eq_ok.mp hlimit
  obtain ⟨ho, rfl⟩ := agree_eq_ok.mp hoffset
  exact ⟨hi, ⟨hl, ho⟩, rfl⟩

theorem exists_merge (hi : mergeAll a.includes b.includes = .ok ns) (h : SamePage a b) :
    ∃ n, merge a b = .ok n := by
  cases b
  simp only at hi
  rw [merge, hi, agree_eq_ok.mpr ⟨h.limit, rfl⟩, agree_eq_ok.mpr ⟨h.offset, rfl⟩]
  exact ⟨_, rfl⟩

theorem name_merge (h : merge a b = .ok n) : n.name = a.name := by
  obtain ⟨includes, limit, offset, -, -, -, rfl⟩ := merge_eq_ok h
  rfl

theorem mergeAll_singleton :
    mergeAll ns [b] = upsert (·.sameJoin b) (fun a => merge a b) (.ok b) ns := by
  simp only [mergeAll]
  cases upsert (·.sameJoin b) (fun a => merge a b) (.ok b) ns <;> rfl

/-- What a merge has in a place: what one side has there, or the merge of what both have. -/
inductive Merged : Option Include → Option Include → Option Include → Prop
  | left (a? : Option Include) : Merged a? none a?
  | right (b? : Option Include) : Merged none b? b?
  | both {a b n : Include} : merge a b = .ok n → Merged (some a) (some b) (some n)

theorem Merged.eq_left {a? c? : Option Include} (h : Merged a? none c?) : c? = a? := by
  cases h <;> rfl

section
variable (hns : Forest s Q m ns) (hb : b.Rooted s Q' m)
  (h : upsert (·.sameJoin b) (fun a => merge a b) (.ok b) ns = .ok ns')
include hns hb h

theorem forest_insert : Forest s (fun _ _ => True) m ns' :=
  forest_mergeAll hns (.singleton hb) (mergeAll_singleton.trans h)

theorem child?_insert : Merged (child? b.name ns) (some b) (child? b.name ns') := by
  obtain ⟨n', hn', ⟨n, hn, hmerge⟩ | ⟨hnone, hfresh⟩⟩ := child?_upsert_self h
    (fun a ha => sameJoin_iff_name (hns.rooted a ha) hb)
    (fun _ _ hname _ hn => (name_merge hn).trans hname) (fun _ hn => Except.ok.inj hn ▸ rfl)
  · rw [hn, hn']
    exact .both hmerge
  · cases hfresh
    rw [hnone, hn']
    exact .right _

theorem child?_insert_of_ne (hne : name ≠ b.name) : child? name ns' = child? name ns :=
  child?_upsert_of_ne h (fun a ha => sameJoin_iff_name (hns.rooted a ha) hb)
    (fun _ _ hname _ hn => (name_merge hn).trans hname) (fun _ hn => Except.ok.inj hn ▸ rfl) hne

end

theorem child?_mergeAll (hns : Forest s Q m ns) (hbs : Forest s Q' m bs)
    (h : mergeAll ns bs = .ok ns') (name : String) :
    Merged (child? name ns) (child? name bs) (child? name ns') := by
  obtain ⟨hnames, hbs⟩ := hbs
  induction bs generalizing Q ns with
  | nil =>
    cases h
    exact .left _
  | cons b bs ih =>
    obtain ⟨ns₁, h₁, h⟩ := mergeAll_cons_eq_ok h
    rw [List.forall_mem_cons] at hbs
    rw [List.map_cons, List.nodup_cons] at hnames
    have ih := ih (forest_insert hns hbs.1 h₁) h hnames.2 hbs.2
    rw [child?_cons]
    split
    · rename_i heq
      subst heq
      rw [child?_eq_none.mpr hnames.1] at ih
      rw [ih.eq_left]
      exact child?_insert hns hbs.1 h₁
    · rename_i hne
      rwa [child?_insert_of_ne hns hbs.1 h₁ (Ne.symm hne)] at ih

/-! ### Along paths -/

theorem nodeAt?_cons_cons {next : String} {rest : List String} :
    nodeAt? (name :: next :: rest) ns =
      (child? name ns).bind fun n => nodeAt? (next :: rest) n.includes := rfl

theorem eq_of_nodeAt?_singleton (hn : n.includes = []) (h : nodeAt? hops [n] = some a) : a = n := by
  rcases hops with _ | ⟨name, _ | ⟨next, rest⟩⟩
  · cases h
  · exact List.mem_singleton.mp (mem_of_child? h)
  · obtain ⟨c, hc, h⟩ := Option.bind_eq_some_iff.mp h
    rw [List.mem_singleton.mp (mem_of_child? hc), hn] at h
    cases rest <;> cases h

/-- Nodes at one path of two forests are below one model, and have one name. -/
theorem rooted_of_nodeAt? (hns : Forest s Q m ns) (hbs : Forest s Q' m bs)
    (ha : nodeAt? hops ns = some a) (hb : nodeAt? hops bs = some b) :
    ∃ parent, a.Rooted s Q parent ∧ b.Rooted s Q' parent ∧ a.name = b.name := by
  induction hops generalizing m ns bs with
  | nil => cases ha
  | cons name rest ih =>
    cases rest with
    | nil =>
      exact ⟨m, hns.rooted_of_child? ha, hbs.rooted_of_child? hb,
        (name_of_child? ha).trans (name_of_child? hb).symm⟩
    | cons next rest =>
      obtain ⟨c, hc, ha⟩ := Option.bind_eq_some_iff.mp (nodeAt?_cons_cons ▸ ha)
      obtain ⟨d, hd, hb⟩ := Option.bind_eq_some_iff.mp (nodeAt?_cons_cons ▸ hb)
      have hrc := hns.rooted_of_child? hc
      obtain ⟨assoc, t, hf⟩ := hrc.exists_follow
      have hf' := (name_of_child? hc).trans (name_of_child? hd).symm ▸ hf
      exact ih (hrc.includes hf) ((hbs.rooted_of_child? hd).includes hf') ha hb

/-- A merge has at the end of a path the merge of what its sides have there. -/
theorem nodeAt?_mergeAll (hns : Forest s Q m ns) (hbs : Forest s Q' m bs)
    (h : mergeAll ns bs = .ok ns') : Merged (nodeAt? hops ns) (nodeAt? hops bs)
      (nodeAt? hops ns') := by
  induction hops generalizing m ns bs ns' with
  | nil => exact .left none
  | cons name rest ih =>
    cases rest with
    | nil => exact child?_mergeAll hns hbs h name
    | cons next rest =>
      simp only [nodeAt?_cons_cons]
      have hname := child?_mergeAll hns hbs h name
      generalize ha : child? name ns = a? at hname
      generalize hb : child? name bs = b? at hname
      generalize child? name ns' = n? at hname
      cases hname with
      | left => exact .left _
      | right => exact .right _
      | @both a b n hn =>
        have hra := hns.rooted_of_child? ha
        have hrb := hbs.rooted_of_child? hb
        obtain ⟨assoc, t, hf⟩ := hra.exists_follow
        have hf' := (name_of_child? ha).trans (name_of_child? hb).symm ▸ hf
        exact ih (hra.includes hf) (hrb.includes hf') (merge_spec hn).1

/-- The node at the end of a path, without those below it. -/
def bareAt? (hops : List String) (ns : List Include) : Option Include := (nodeAt? hops ns).map bare

theorem bareAt?_mergeAll (hns : Forest s Q m ns) (hbs : Forest s Q' m bs)
    (h : mergeAll ns bs = .ok ns') :
    bareAt? hops ns' = Option.merge mergeBare (bareAt? hops ns) (bareAt? hops bs) := by
  have hnode : Merged (nodeAt? hops ns) (nodeAt? hops bs) (nodeAt? hops ns') :=
    nodeAt?_mergeAll hns hbs h
  unfold bareAt?
  generalize nodeAt? hops ns = a?, nodeAt? hops bs = b?, nodeAt? hops ns' = n? at hnode
  cases hnode with
  | left => simp
  | right => simp
  | both hn => exact congrArg some (merge_spec hn).2.2

/-- On every path the nodes that two trees both have are related. -/
def AtCommonPaths (R : Include → Include → Prop) (ns bs : List Include) : Prop :=
  ∀ hops a b, bareAt? hops ns = some a → bareAt? hops bs = some b → R a b

namespace AtCommonPaths

variable {R : Include → Include → Prop} (h : AtCommonPaths R ns bs)
  (ha : child? name ns = some a) (hb : child? name bs = some b)
include h ha hb

theorem here : R a.bare b.bare :=
  h [name] a.bare b.bare (congrArg (Option.map bare) ha) (congrArg (Option.map bare) hb)

theorem below : AtCommonPaths R a.includes b.includes := by
  intro hops c d hc hd
  cases hops with
  | nil => cases hc
  | cons next rest =>
    refine h (name :: next :: rest) c d ?_ ?_
    · rwa [bareAt?, nodeAt?_cons_cons, ha, Option.bind_some]
    · rwa [bareAt?, nodeAt?_cons_cons, hb, Option.bind_some]

end AtCommonPaths

/-- On every path the pages of two trees do not differ if both are given. -/
def SamePages : List Include → List Include → Prop := AtCommonPaths SamePage

theorem samePages_of_mergeAll (hns : Forest s Q m ns) (hbs : Forest s Q' m bs)
    (h : mergeAll ns bs = .ok ns') : SamePages ns bs := by
  intro hops a b ha hb
  obtain ⟨a, ha', rfl⟩ := Option.map_eq_some_iff.mp ha
  obtain ⟨b, hb', rfl⟩ := Option.map_eq_some_iff.mp hb
  have hnode : Merged (nodeAt? hops ns) (nodeAt? hops bs) (nodeAt? hops ns') :=
    nodeAt?_mergeAll hns hbs h
  rw [ha', hb'] at hnode
  generalize nodeAt? hops ns' = n? at hnode
  cases hnode with
  | both hn => exact ⟨(merge_spec hn).2.1.limit, (merge_spec hn).2.1.offset⟩

theorem SamePage.of_bare (h : SamePage a.bare b.bare) : SamePage a b := ⟨h.limit, h.offset⟩

theorem exists_upsert {p : Include → Bool} {change : Include → Except PlanError Include}
    (H : ∀ n, ns.find? p = some n → ∃ n', change n = .ok n') :
    ∃ ns', upsert p change (.ok b) ns = .ok ns' := by
  induction ns with
  | nil => exact ⟨[b], rfl⟩
  | cons n ns ih =>
    by_cases hp : p n = true
    · obtain ⟨n', hn'⟩ := H n (List.find?_cons_of_pos hp)
      exact ⟨_, upsert_cons_eq_ok.mpr (.inl ⟨hp, n', hn', rfl⟩)⟩
    · obtain ⟨ns', hns'⟩ := ih fun c hc => H c (by rwa [List.find?_cons_of_neg hp])
      exact ⟨_, upsert_cons_eq_ok.mpr (.inr ⟨Bool.eq_false_iff.mpr hp, ns', hns', rfl⟩)⟩

theorem find?_sameJoin (hns : Forest s Q m ns) (hb : b.Rooted s Q' m) :
    ns.find? (·.sameJoin b) = child? b.name ns := by
  obtain ⟨-, hns⟩ := hns
  unfold child?
  induction ns with
  | nil => rfl
  | cons n ns ih =>
    rw [List.forall_mem_cons] at hns
    have hn : n.sameJoin b = (n.name == b.name) := by
      rw [Bool.eq_iff_iff, sameJoin_iff_name hns.1 hb, beq_iff_eq]
    rw [List.find?_cons, List.find?_cons, hn, ih hns.2]

theorem exists_mergeAll_of
    (H : ∀ b ∈ bs, ∀ {a : Include}, a.Rooted s (fun _ _ => True) m → b.Rooted s Q' m →
      a.name = b.name → SamePage a b → SamePages a.includes b.includes → ∃ n, merge a b = .ok n)
    (hns : Forest s (fun _ _ => True) m ns) (hbs : Forest s Q' m bs)
    (h : ∀ b ∈ bs, ∀ a, child? b.name ns = some a →
      SamePage a b ∧ SamePages a.includes b.includes) : ∃ ns', mergeAll ns bs = .ok ns' := by
  obtain ⟨hnames, hbs⟩ := hbs
  induction bs generalizing ns with
  | nil => exact ⟨ns, rfl⟩
  | cons b bs ih =>
    rw [List.forall_mem_cons] at hbs h H
    rw [List.map_cons, List.nodup_cons] at hnames
    obtain ⟨ns₁, h₁⟩ : ∃ ns₁, upsert (·.sameJoin b) (fun a => merge a b) (.ok b) ns = .ok ns₁ :=
      exists_upsert fun a ha => by
        rw [find?_sameJoin hns hbs.1] at ha
        obtain ⟨hpage, hpages⟩ := h.1 a ha
        exact H.1 (hns.rooted_of_child? ha) hbs.1 (name_of_child? ha) hpage hpages
    obtain ⟨ns', h'⟩ := ih H.2 (forest_insert hns hbs.1 h₁) (fun c hc a ha => by
      -- The later nodes have other names, so they meet what was there before.
      have hne : c.name ≠ b.name := fun heq =>
        hnames.1 (heq ▸ List.mem_map_of_mem (f := Include.name) hc)
      rw [child?_insert_of_ne hns hbs.1 h₁ hne] at ha
      exact h.2 c hc a ha) hnames.2 hbs.2
    rw [mergeAll, h₁]
    exact ⟨ns', h'⟩

theorem exists_merge_of_samePages (ha : a.Rooted s (fun _ _ => True) m) (hb : b.Rooted s Q' m)
    (hname : a.name = b.name) (hpage : SamePage a b) (h : SamePages a.includes b.includes) :
    ∃ n, merge a b = .ok n := by
  induction b generalizing m a with
  | node b ih =>
    obtain ⟨assoc, t, hf⟩ := ha.exists_follow
    have hbs := hb.includes (hname ▸ hf)
    obtain ⟨ns, hns⟩ := exists_mergeAll_of
      (fun c hc _ ha hb hname hpage h => ih c hc ha hb hname hpage h) (ha.includes hf) hbs
      fun c hc d hd =>
        ⟨(h.here hd (hbs.child?_of_mem hc)).of_bare, h.below hd (hbs.child?_of_mem hc)⟩
    exact exists_merge hns hpage

/-- Trees merge exactly if no page differs. -/
theorem exists_mergeAll_iff (hns : Forest s Q m ns) (hbs : Forest s Q' m bs) :
    (∃ ns', mergeAll ns bs = .ok ns') ↔ SamePages ns bs := by
  constructor
  · rintro ⟨ns', h⟩
    exact samePages_of_mergeAll hns hbs h
  · intro h
    exact exists_mergeAll_of
      (fun _ _ _ ha hb hname hpage h => exists_merge_of_samePages ha hb hname hpage h)
      hns.weaken hbs
      fun c hc d hd =>
        ⟨(h.here hd (hbs.child?_of_mem hc)).of_bare, h.below hd (hbs.child?_of_mem hc)⟩

/-! ## Inner joins -/

/-- The node, made an inner join if asked for. -/
def mark (inner : Bool) (n : Include) : Include := { n with required := n.required || inner }

theorem child?_modifyFirst {change : Include → Include} (h : ∀ n, (change n).name = n.name) :
    child? name (modifyFirst (·.name == hop) change ns) =
      if name = hop then (child? name ns).map change else child? name ns := by
  induction ns with
  | nil => simp [modifyFirst, child?]
  | cons n ns ih =>
    rw [modifyFirst]
    by_cases hn : n.name = hop
    · by_cases hname : name = hop
      · simp [hn, hname, child?_cons, h]
      · simp [hn, hname, child?_cons, h, Ne.symm hname]
    · by_cases hname : name = hop
      · subst hname
        simpa [hn, child?_cons] using ih
      · simp only [beq_iff_eq, hn, if_false, child?_cons, ih, hname]

@[simp] theorem mark_false : mark false = id := by
  funext n
  cases n
  simp [mark]

theorem bareAt?_cons_cons {next : String} {rest : List String} :
    bareAt? (name :: next :: rest) ns =
      (child? name ns).bind fun n => bareAt? (next :: rest) n.includes := by
  rw [bareAt?, nodeAt?_cons_cons, Option.map_bind]
  rfl

theorem child?_requireHops : child? name (requireHops (hop :: hops) ns) =
    if name = hop then
      (child? name ns).map fun n =>
        { n with required := true, includes := requireHops hops n.includes }
    else child? name ns :=
  child?_modifyFirst fun _ => rfl

/-- The nodes on the way along the hops become inner joins, and no others. -/
theorem bareAt?_requireHops : bareAt? path (requireHops hops ns) =
    (bareAt? path ns).map (mark (path.isPrefixOf hops)) := by
  induction path generalizing hops ns with
  | nil => rfl
  | cons name rest ih =>
    cases hops with
    | nil => simp [requireHops]
    | cons hop hops =>
      by_cases hname : name = hop
      · subst hname
        cases rest with
        | nil =>
          change (child? name _).map bare = ((child? name ns).map bare).map _
          rw [child?_requireHops, if_pos rfl, Option.map_map, Option.map_map]
          congr 1
          funext n
          simp [bare, mark]
        | cons next rest =>
          have hpath : (name :: next :: rest).isPrefixOf (name :: hops) =
              (next :: rest).isPrefixOf hops := by simp
          rw [bareAt?_cons_cons, bareAt?_cons_cons, child?_requireHops, if_pos rfl,
            Option.bind_map, Option.map_bind, hpath]
          congr 1
          funext n
          exact ih
      · have hpath : (name :: rest).isPrefixOf (hop :: hops) = false := by
          simp [List.isPrefixOf, hname]
        have hchild : child? name (requireHops (hop :: hops) ns) = child? name ns := by
          rw [child?_requireHops, if_neg hname]
        rw [hpath, mark_false, Option.map_id, id]
        cases rest with
        | nil => exact congrArg (Option.map bare) hchild
        | cons next rest => rw [bareAt?_cons_cons, bareAt?_cons_cons, hchild]

/-- The nodes along several paths made inner joins. -/
def requireAll (hopss : List (List String)) (ns : List Include) : List Include :=
  hopss.foldl (fun ns hops => requireHops hops ns) ns

theorem bareAt?_requireAll {hopss : List (List String)} : bareAt? path (requireAll hopss ns) =
    (bareAt? path ns).map (mark (hopss.any path.isPrefixOf)) := by
  induction hopss generalizing ns with
  | nil => simp [requireAll]
  | cons hops hopss ih =>
    rw [requireAll, List.foldl_cons]
    have ih := @ih (requireHops hops ns)
    rw [requireAll] at ih
    rw [ih, bareAt?_requireHops, Option.map_map]
    congr 1
    funext n
    simp [mark, Bool.or_assoc]

theorem Forest.requireAll {hopss : List (List String)} (hns : Forest s Q m ns) :
    Forest s Q m (requireAll hopss ns) := by
  induction hopss generalizing ns with
  | nil => exact hns
  | cons hops hopss ih => exact ih hns.requireHops

end Include

end RelQuery

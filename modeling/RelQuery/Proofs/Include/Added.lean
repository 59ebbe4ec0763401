import RelQuery.Proofs.Include.Through

/-!
# Paths that are added

A path that the schema has can be added to nodes that are all joined. The nodes on its way become
inner joins if that is asked for, and no others do. So what a filter adds to no nodes at all is
known: its hops, and inner joins on the way of its negated comparisons.
-/

namespace RelQuery.Include

open RelQuery.Filter (GoesAlong)

variable {s : Schema} {Q : Model → Filter → Prop} {m t : Model} {ns ns' : List Include} {f : Filter}
  {name table : String} {hops path : List String} {required : Bool} {T : List String → Prop}

/-! ## Nodes that are all joined -/

/-- No node at any depth is loaded separately. -/
def AllJoined (ns : List Include) : Prop := ∀ path n, bareAt? path ns = some n → n.separate = false

theorem allJoined_nil : AllJoined [] := by
  intro path n hn
  rw [bareAt?_nil] at hn
  cases hn

theorem AllJoined.under (h : AllJoined ns) : AllJoined (under name ns) := by
  rintro (_ | ⟨next, rest⟩) n hn
  · cases hn
  · exact h (name :: next :: rest) n (bareAt?_under.trans hn)

/-- Hops are joined. -/
theorem AllJoined.extends (h : AllJoined ns) (hext : Extends T ns ns') : AllJoined ns' := by
  intro path n hn
  obtain ⟨c, inner, hc, rfl⟩ | ⟨-, ⟨assoc, t, inner, rfl⟩, -⟩ := hext.exists_node hn
  · exact h path c hc
  · rfl

theorem exists_ensurePath (required : Bool) (hns : Forest s Q m ns) (hj : AllJoined ns)
    (h : s.modelAt m hops = .ok t) : ∃ ns', ensurePath s required hops m ns = .ok ns' := by
  induction hops generalizing m ns with
  | nil => exact ⟨ns, rfl⟩
  | cons hop hops ih =>
    obtain ⟨assoc, target, hf, ht⟩ := Schema.modelAt_cons.mp h
    rw [ensurePath_cons hf]
    refine exists_upsert_iff.mpr ?_
    rw [find?_hopNode hns hf]
    cases hn : child? hop ns with
    | none => exact exists_extendNode rfl (ih .nil allJoined_nil ht)
    | some n =>
      have hs : n.separate = false := hj [hop] n.bare (congrArg (Option.map bare) hn)
      refine exists_extendNode hs ?_
      rw [Option.getD_some, ← under_of_child? hn]
      exact ih (hns.under hf) hj.under ht

theorem exists_foldlM_ensurePath {α : Type} (required : Bool) (hopsOf : α → List String)
    {as : List α} (hns : Forest s Q m ns) (hj : AllJoined ns)
    (h : ∀ a ∈ as, ∃ t, s.modelAt m (hopsOf a) = .ok t) :
    ∃ ns', as.foldlM (fun ns a => ensurePath s required (hopsOf a) m ns) ns = .ok ns' ∧
      Forest s Q m ns' ∧ AllJoined ns' := by
  refine exists_foldlM (P := fun ns => Forest s Q m ns ∧ AllJoined ns)
    (fun ns ⟨hns, hj⟩ a ha => ?_) ⟨hns, hj⟩
  obtain ⟨t, ht⟩ := h a ha
  obtain ⟨ns', h'⟩ := exists_ensurePath required hns hj ht
  exact ⟨ns', h', hns.ensurePath h', hj.extends (extends_ensurePath hns h')⟩

/-- A filter whose paths the schema has can be attached. -/
theorem exists_attachFilter (hns : Forest s Q m ns) (hj : AllJoined ns)
    (h : ∀ hops, GoesAlong (some f) hops → ∃ t, s.modelAt m hops = .ok t) :
    ∃ ns', attachFilter s m f ns = .ok ns' := by
  have hpaths : ∀ p ∈ f.paths, ∃ t, s.modelAt m p.hops = .ok t :=
    fun p hp => h p.hops (Filter.goesAlong_some.mpr ⟨p, hp, rfl⟩)
  have hnegated : ∀ hops ∈ f.negatedHops, ∃ t, s.modelAt m hops = .ok t := by
    intro hops hhops
    obtain ⟨-, path, hpath, hr⟩ := Filter.mem_negatedHops_iff.mp hhops
    exact h hops ⟨path, true, hpath, f, rfl, hr⟩
  obtain ⟨ns₁, h₁, hns₁, hj₁⟩ := exists_foldlM_ensurePath false AttributePath.hops hns hj hpaths
  obtain ⟨ns', h', -⟩ := exists_foldlM_ensurePath true id hns₁ hj₁ hnegated
  exact ⟨ns', by rw [attachFilter, h₁, ok_bind]; exact h'⟩

/-! ## Inner joins -/

/-- The node at a path is an inner join. -/
def InnerAt (ns : List Include) (path : List String) : Prop :=
  ∃ n, bareAt? path ns = some n ∧ n.required = true

theorem innerAt_singleton :
    InnerAt ns [name] ↔ ∃ n, child? name ns = some n ∧ n.required = true := by
  simp [InnerAt, bareAt?_singleton, bare]

theorem innerAt_under {next : String} {rest : List String} :
    InnerAt ns (name :: next :: rest) ↔ InnerAt (under name ns) (next :: rest) := by
  rw [InnerAt, InnerAt, bareAt?_under]

/-- The nodes that become inner joins are those on the way along the hops, if asked for. -/
theorem innerAt_ensurePath (hns : Forest s Q m ns)
    (h : ensurePath s required hops m ns = .ok ns') : InnerAt ns' path ↔
      InnerAt ns path ∨ required = true ∧ path ≠ [] ∧ path <+: hops := by
  induction path generalizing hops m ns ns' with
  | nil => simp [InnerAt, bareAt?, nodeAt?]
  | cons name rest ih =>
    cases hops with
    | nil =>
      cases h
      simp
    | cons hop hops =>
      obtain ⟨hne, assoc, t, n', hf, hself, hbare, hi⟩ := child?_ensurePath hns h
      rw [List.cons_prefix_cons]
      by_cases hname : name = hop
      · subst hname
        cases rest with
        | nil =>
          have hrequired := congrArg Include.required hbare
          change n'.required = (((child? name ns).getD (hopNode assoc t)).required || required)
            at hrequired
          rw [innerAt_singleton, innerAt_singleton, hself]
          cases hn : child? name ns with
          | none => simp [hrequired, hn, hopNode]
          | some n => simp [hrequired, hn]
        | cons next rest =>
          rw [innerAt_under, innerAt_under, under_of_child? hself, ih (hns.under hf) hi]
          simp
      · have hsame : InnerAt ns' (name :: rest) ↔ InnerAt ns (name :: rest) := by
          cases rest with
          | nil => rw [innerAt_singleton, innerAt_singleton, hne name hname]
          | cons next rest => rw [innerAt_under, innerAt_under, under, under, hne name hname]
        simp [hsame, hname]

theorem innerAt_foldlM_ensurePath {α : Type} (hopsOf : α → List String) {as : List α}
    (hns : Forest s Q m ns)
    (h : as.foldlM (fun ns a => ensurePath s required (hopsOf a) m ns) ns = .ok ns') :
    InnerAt ns' path ↔
      InnerAt ns path ∨ required = true ∧ path ≠ [] ∧ ∃ a ∈ as, path <+: hopsOf a := by
  induction as generalizing ns with
  | nil =>
    cases h
    simp
  | cons a as ih =>
    obtain ⟨ns₁, h₁, h⟩ := bind_eq_ok.mp h
    rw [ih (hns.ensurePath h₁) h, innerAt_ensurePath hns h₁, List.exists_mem_cons_iff]
    tauto

/-- A filter makes inner joins of the nodes that its negated comparisons go through. -/
theorem innerAt_attachFilter (hns : Forest s Q m ns) (h : attachFilter s m f ns = .ok ns') :
    InnerAt ns' path ↔ InnerAt ns path ∨ path ≠ [] ∧ ∃ negated, f.Reaches (negated, true) ∧
      path <+: negated.hops := by
  obtain ⟨ns₁, h₁, h⟩ := bind_eq_ok.mp h
  have hns₁ : Forest s Q m ns₁ :=
    foldlM_preserves (P := Forest s Q m) (fun _ _ _ _ hns h => hns.ensurePath h) hns h₁
  have hpaths : InnerAt ns₁ path ↔ InnerAt ns path := by
    rw [innerAt_foldlM_ensurePath AttributePath.hops hns h₁]
    simp
  rw [innerAt_foldlM_ensurePath id hns₁ h, hpaths]
  refine or_congr_right ((and_iff_right rfl).trans (and_congr_right fun hne => ?_))
  constructor
  · rintro ⟨hops, hhops, hpath⟩
    obtain ⟨-, negated, rfl, hr⟩ := Filter.mem_negatedHops_iff.mp hhops
    exact ⟨negated, hr, hpath⟩
  · rintro ⟨negated, hr, hpath⟩
    have hhops : negated.hops ≠ [] := fun hnil => hne (List.prefix_nil.mp (hnil ▸ hpath))
    exact ⟨negated.hops, Filter.mem_negatedHops_iff.mpr ⟨hhops, negated, rfl, hr⟩, hpath⟩

/-! ## Nodes without filters -/

/-- There is nothing to lower in nodes without filters. -/
theorem lower_of_plain {n : Include} (hn : n.Rooted s (fun _ _ => False) m) :
    lower s m table n = .ok n := by
  induction hn generalizing table with
  | @node m t assoc n hf ht hk hfilter _ _ ih =>
    have hnone : n.filter = none := Option.eq_none_iff_forall_ne_some.mpr hfilter
    obtain ⟨_, name, _, _, filter, includes, _, _, _, separate⟩ := n
    simp only at hf hnone ih
    subst hnone
    have hbelow : ∀ own, lowerAll s t own includes = .ok includes := by
      intro own
      rw [lowerAll_eq_mapM]
      exact mapM_of_eq_ok_self fun c hc => ih c hc
    simp [lower, hf, hbelow, pure, Except.pure]

theorem lowerAll_of_plain (hns : Forest s (fun _ _ => False) m ns) :
    lowerAll s m table ns = .ok ns := by
  rw [lowerAll_eq_mapM]
  exact mapM_of_eq_ok_self fun n hn => lower_of_plain (hns.rooted n hn)

end RelQuery.Include

import RelQuery.Proofs.Include.Loading

/-!
# Passes, path by path

What the passes over include trees leave at a path. Adding paths keeps every node, up to inner
joins, and adds nodes on these paths only. A page makes some nodes separate, and lowering changes
filters; neither changes anything else. A path stays joined on a page unless a node on it is cut.
-/

namespace RelQuery.Include

variable {s : Schema} {Q : Model → Filter → Prop} {m t : Model} {assoc : Association}
  {n n' c : Include} {ns ns' ns₁ : List Include} {a? b? c? : Option Include}
  {hop name table : String} {hops path base : List String} {required inner : Bool}
  {T T' : List String → Prop} {P P' : Prop}

/-! ## Below a name -/

/-- The nodes below the first one with a name. -/
def under (name : String) (ns : List Include) : List Include :=
  ((child? name ns).map (·.includes)).getD []

theorem under_of_child? (h : child? name ns = some n) : under name ns = n.includes := by
  simp [under, h]

theorem under_of_none (h : child? name ns = none) : under name ns = [] := by simp [under, h]

theorem bareAt?_singleton : bareAt? [name] ns = (child? name ns).map bare := rfl

theorem bareAt?_nil : bareAt? path [] = none := by
  rcases path with _ | ⟨name, _ | ⟨next, rest⟩⟩ <;> rfl

theorem bareAt?_under {next : String} {rest : List String} :
    bareAt? (name :: next :: rest) ns = bareAt? (next :: rest) (under name ns) := by
  rw [bareAt?_cons_cons]
  cases h : child? name ns with
  | none => rw [under_of_none h, bareAt?_nil, Option.bind_none]
  | some n => rw [under_of_child? h, Option.bind_some]

theorem nodeAt?_append (h : nodeAt? base ns = some n) (hne : path ≠ []) :
    nodeAt? (base ++ path) ns = nodeAt? path n.includes := by
  induction base generalizing ns with
  | nil => cases h
  | cons name rest ih =>
    obtain ⟨next, path, rfl⟩ := List.exists_cons_of_ne_nil hne
    cases rest with
    | nil =>
      have hn : child? name ns = some n := h
      rw [List.singleton_append, nodeAt?_cons_cons, hn, Option.bind_some]
    | cons next' rest =>
      rw [nodeAt?_cons_cons] at h
      obtain ⟨c, hc, h⟩ := Option.bind_eq_some_iff.mp h
      rw [List.cons_append, List.cons_append, nodeAt?_cons_cons, hc, Option.bind_some]
      exact ih h

theorem bareAt?_append (h : nodeAt? base ns = some n) (hne : path ≠ []) :
    bareAt? (base ++ path) ns = bareAt? path n.includes :=
  congrArg (Option.map bare) (nodeAt?_append h hne)

theorem ne_nil_of_bareAt? (h : bareAt? path ns = some n) : path ≠ [] := by
  rintro rfl
  cases h

/-- Trees are related at a path if their children of its first name are, and what is below these is
related at the rest of the path. -/
theorem rel_bareAt?_cons {C R : Include → Include → Prop} {rest : List String}
    (hchild : Option.Rel C (child? name ns) (child? name ns'))
    (here : ∀ n n', C n n' → R n.bare n'.bare)
    (below : ∀ n n', C n n' → Option.Rel R (bareAt? rest n.includes) (bareAt? rest n'.includes)) :
    Option.Rel R (bareAt? (name :: rest) ns) (bareAt? (name :: rest) ns') := by
  generalize hc : child? name ns = c?, hc' : child? name ns' = c'? at hchild
  cases rest with
  | nil =>
    rw [bareAt?_singleton, bareAt?_singleton, hc, hc']
    cases hchild with
    | none => exact .none
    | some h => exact .some (here _ _ h)
  | cons next rest =>
    rw [bareAt?_under, bareAt?_under]
    cases hchild with
    | none =>
      rw [under_of_none hc, under_of_none hc', bareAt?_nil]
      exact .none
    | some h =>
      rw [under_of_child? hc, under_of_child? hc']
      exact below _ _ h

/-! ## Added paths -/

/-- A node that is there only because a path goes through it. -/
def IsHop (n : Include) : Prop := ∃ assoc t inner, n = mark inner (hopNode assoc t)

/-- A hop has neither filter nor page. -/
theorem IsHop.plain (h : n.IsHop) : n.filter = none ∧ n.limit = none ∧ n.offset = none := by
  obtain ⟨assoc, t, inner, rfl⟩ := h
  exact ⟨rfl, rfl, rfl⟩

theorem mark_mark {inner' : Bool} : mark inner' (mark inner n) = mark (inner || inner') n := by
  simp [mark, Bool.or_assoc]

/-- A place after paths were added: its node is still there, by an inner join now if need be, or a
hop is new, for which there must be a reason. -/
inductive Extended (P : Prop) : Option Include → Option Include → Prop
  | keep (n : Include) (inner : Bool) : Extended P (some n) (some (mark inner n))
  | add {n : Include} : n.IsHop → P → Extended P none (some n)
  | none : Extended P none none

namespace Extended

theorem refl (a? : Option Include) : Extended P a? a? := by
  cases a? with
  | none => exact .none
  | some n => simpa using keep (P := P) n false

theorem mono (h : Extended P a? b?) (hP : P → P') : Extended P' a? b? := by
  cases h with
  | keep n inner => exact .keep n inner
  | add hn hp => exact .add hn (hP hp)
  | none => exact .none

theorem trans (h : Extended P a? b?) (h' : Extended P b? c?) : Extended P a? c? := by
  cases h with
  | keep n inner =>
    cases h' with
    | keep _ inner' =>
      rw [mark_mark]
      exact .keep n _
  | add hn hp =>
    cases h' with
    | keep _ inner' =>
      obtain ⟨assoc, t, inner, rfl⟩ := hn
      exact .add ⟨assoc, t, inner || inner', mark_mark⟩ hp
  | none => exact h'

end Extended

/-- A tree with nodes added on the way along paths that have a property. -/
def Extends (T : List String → Prop) (ns ns' : List Include) : Prop :=
  ∀ path, Extended (∃ hops, T hops ∧ path <+: hops) (bareAt? path ns) (bareAt? path ns')

namespace Extends

theorem refl (ns : List Include) : Extends T ns ns := fun _ => .refl _

theorem mono (h : Extends T ns ns') (hT : ∀ hops, T hops → T' hops) : Extends T' ns ns' :=
  fun path => (h path).mono fun ⟨hops, ht, hpath⟩ => ⟨hops, hT hops ht, hpath⟩

theorem trans (h : Extends T ns ns₁) (h' : Extends T ns₁ ns') : Extends T ns ns' :=
  fun path => (h path).trans (h' path)

/-- No node is lost, only joins become inner ones. -/
theorem exists_extended (h : Extends T ns ns') (hn : bareAt? path ns = some n) :
    ∃ inner, bareAt? path ns' = some (mark inner n) := by
  have hat := h path
  rw [hn] at hat
  generalize bareAt? path ns' = n'? at hat
  cases hat with
  | keep _ inner => exact ⟨inner, rfl⟩

/-- A node was there before, or it is a hop of a path that was added. -/
theorem exists_node (h : Extends T ns ns') (hn : bareAt? path ns' = some n') :
    (∃ n inner, bareAt? path ns = some n ∧ n' = mark inner n) ∨
      bareAt? path ns = none ∧ n'.IsHop ∧ ∃ hops, T hops ∧ path <+: hops := by
  have hat := h path
  rw [hn] at hat
  generalize bareAt? path ns = n? at hat
  cases hat with
  | keep n inner => exact .inl ⟨n, inner, rfl, rfl⟩
  | add hhop hhops => exact .inr ⟨rfl, hhop, hhops⟩

/-- A path that is added changes the node of its first hop, and below that follows the others. -/
theorem of_child (hne : ∀ name, name ≠ hop → child? name ns' = child? name ns)
    (hself : Extended True (bareAt? [hop] ns) (bareAt? [hop] ns'))
    (hbelow : Extends (· = hops) (under hop ns) (under hop ns')) :
    Extends (· = hop :: hops) ns ns' := by
  rintro (_ | ⟨name, rest⟩)
  · exact .none
  by_cases hname : name = hop
  · subst hname
    cases rest with
    | nil => exact hself.mono fun _ => ⟨_, rfl, hops, rfl⟩
    | cons next rest =>
      rw [bareAt?_under, bareAt?_under]
      refine (hbelow (next :: rest)).mono ?_
      rintro ⟨_, rfl, hpath⟩
      exact ⟨_, rfl, List.cons_prefix_cons.mpr ⟨rfl, hpath⟩⟩
  · have hsame : bareAt? (name :: rest) ns' = bareAt? (name :: rest) ns := by
      cases rest with
      | nil => exact congrArg (Option.map bare) (hne name hname)
      | cons next rest => rw [bareAt?_cons_cons, bareAt?_cons_cons, hne name hname]
    rw [hsame]
    exact .refl _

end Extends

theorem sameJoin_hopNode_iff (hf : s.follow m hop = .ok (assoc, t)) (hn : n.Rooted s Q m) :
    (hopNode assoc t).sameJoin n = true ↔ n.name = hop := by
  rw [sameJoin_iff_name (.hopNode (Q := Q) hf) hn, eq_comm]
  exact Eq.congr_right (Schema.name_of_follow hf)

theorem Forest.under (hns : Forest s Q m ns) (hf : s.follow m hop = .ok (assoc, t)) :
    Forest s Q t (under hop ns) := by
  cases hn : child? hop ns with
  | none =>
    rw [under_of_none hn]
    exact .nil
  | some n =>
    rw [under_of_child? hn]
    exact (hns.rooted_of_child? hn).includes ((name_of_child? hn).symm ▸ hf)

/-- A path that is added goes on below the node of its first hop, which is new if there was none.
The other nodes stay as they are. -/
theorem child?_ensurePath (hns : Forest s Q m ns)
    (h : ensurePath s required (hop :: hops) m ns = .ok ns') :
    (∀ name, name ≠ hop → child? name ns' = child? name ns) ∧
      ∃ assoc t n', s.follow m hop = .ok (assoc, t) ∧ child? hop ns' = some n' ∧
        n'.bare = mark required ((child? hop ns).getD (hopNode assoc t)).bare ∧
        ensurePath s required hops t (under hop ns) = .ok n'.includes := by
  obtain ⟨assoc, t, hf, h⟩ := ensurePath_cons_eq_ok h
  have hp : ∀ n ∈ ns, (hopNode assoc t).sameJoin n = true ↔ n.name = hop :=
    fun n hn => sameJoin_hopNode_iff hf (hns.rooted n hn)
  have hname : ∀ n : Include, n.name = hop → ∀ n',
      extendNode s required hops assoc t n = .ok n' → n'.name = hop := by
    intro n hn n' hn'
    obtain ⟨-, includes, -, rfl⟩ := extendNode_eq_ok hn'
    exact hn
  have hfresh := hname (hopNode assoc t) (Schema.name_of_follow hf)
  refine ⟨fun name hne => child?_upsert_of_ne h hp (fun n _ => hname n) hfresh hne, ?_⟩
  obtain ⟨n', hself, ⟨n, hn, hn'⟩ | ⟨hnone, hn'⟩⟩ :=
    child?_upsert_self h hp (fun n _ => hname n) hfresh
  · obtain ⟨-, includes, hi, rfl⟩ := extendNode_eq_ok hn'
    refine ⟨assoc, t, _, hf, hself, by rw [hn]; rfl, ?_⟩
    rwa [under_of_child? hn]
  · obtain ⟨-, includes, hi, rfl⟩ := extendNode_eq_ok hn'
    refine ⟨assoc, t, _, hf, hself, by rw [hnone]; rfl, ?_⟩
    rwa [under_of_none hnone]

theorem extends_ensurePath (hns : Forest s Q m ns)
    (h : ensurePath s required hops m ns = .ok ns') : Extends (· = hops) ns ns' := by
  induction hops generalizing m ns ns' with
  | nil =>
    cases h
    exact .refl _
  | cons hop hops ih =>
    obtain ⟨hne, assoc, t, n', hf, hself, hbare, hi⟩ := child?_ensurePath hns h
    refine .of_child hne ?_ ?_
    · rw [bareAt?_singleton, bareAt?_singleton, hself, Option.map_some, hbare]
      cases child? hop ns with
      | none => exact .add ⟨assoc, t, required, rfl⟩ trivial
      | some n => exact .keep n.bare required
    · rw [under_of_child? hself]
      exact ih (hns.under hf) hi

theorem extends_foldlM_ensurePath {α : Type} (hopsOf : α → List String) {as : List α}
    (hns : Forest s Q m ns)
    (h : as.foldlM (fun ns a => ensurePath s required (hopsOf a) m ns) ns = .ok ns') :
    Extends (fun hops => ∃ a ∈ as, hopsOf a = hops) ns ns' := by
  induction as generalizing ns with
  | nil =>
    cases h
    exact .refl _
  | cons a as ih =>
    obtain ⟨ns₁, h₁, h⟩ := bind_eq_ok.mp h
    have hfirst : Extends (fun hops => ∃ b ∈ a :: as, hopsOf b = hops) ns ns₁ :=
      (extends_ensurePath hns h₁).mono fun _ hhops => ⟨a, List.mem_cons_self, hhops.symm⟩
    refine hfirst.trans ((ih (hns.ensurePath h₁) h).mono ?_)
    rintro hops ⟨b, hb, hhops⟩
    exact ⟨b, List.mem_cons_of_mem _ hb, hhops⟩

/-! ## Pages -/

/-- A page cuts a node off at a path: it is to-many and selects something, and no pinned path runs
through it. -/
structure Cut (pinned : List (List String)) (path : List String) (n : Include) : Prop where
  many : n.kind.isMany = true
  attributes : n.attributes ≠ []
  free : ∀ hops ∈ pinned, ¬path <+: hops

variable {pinned : List (List String)}

theorem cut_iff : Cut pinned path n ↔
    (n.kind.isMany && !pinned.any path.isPrefixOf && !n.attributes.isEmpty) = true := by
  simp only [Bool.and_eq_true, Bool.not_eq_true', List.any_eq_false, List.isPrefixOf_iff_prefix,
    List.isEmpty_eq_false_iff]
  constructor
  · rintro ⟨hmany, hattributes, hfree⟩
    exact ⟨⟨hmany, hfree⟩, hattributes⟩
  · rintro ⟨⟨hmany, hfree⟩, hattributes⟩
    exact ⟨hmany, hattributes, hfree⟩

theorem cut_bare : Cut pinned path n.bare ↔ Cut pinned path n :=
  ⟨fun ⟨hmany, hattributes, hfree⟩ => ⟨hmany, hattributes, hfree⟩,
    fun ⟨hmany, hattributes, hfree⟩ => ⟨hmany, hattributes, hfree⟩⟩

theorem splitPage_of_cut (h : n.separate = true ∨ Cut pinned (path ++ [n.name]) n) :
    Plan.splitPage pinned path n = { n with separate := true } := by
  rw [cut_iff, ← Bool.or_eq_true] at h
  cases n
  exact if_pos h

theorem splitPage_of_not_cut (hs : n.separate = false) (h : ¬Cut pinned (path ++ [n.name]) n) :
    Plan.splitPage pinned path n =
      { n with includes := Plan.splitPageAll pinned (path ++ [n.name]) n.includes } := by
  rw [cut_iff] at h
  cases n
  simp only at hs h
  subst hs
  exact if_neg (by simpa using h)

theorem child?_splitPageAll : child? name (Plan.splitPageAll pinned base ns) =
    (child? name ns).map (Plan.splitPage pinned base) := by
  have hcomp : (fun n : Include => n.name == name) ∘ Plan.splitPage pinned base =
      fun n => n.name == name := funext fun n => congrArg (· == name) name_splitPage
  rw [splitPageAll_eq_map, child?, List.find?_map, hcomp, child?]

/-- A node on a page: at most it is separate now. -/
def Paged (n n' : Include) : Prop :=
  ∃ separate, n' = { n with separate } ∧ (n.separate = true → separate = true)

theorem paged_refl : Paged n n := ⟨n.separate, by cases n; rfl, id⟩

theorem rel_paged_refl (n? : Option Include) : Option.Rel Paged n? n? := by
  cases n? with
  | none => exact .none
  | some n => exact .some paged_refl

theorem paged_splitPageAll (pinned : List (List String)) (path base : List String)
    (ns : List Include) :
    Option.Rel Paged (bareAt? path ns) (bareAt? path (Plan.splitPageAll pinned base ns)) := by
  induction path generalizing base ns with
  | nil => exact .none
  | cons name rest ih =>
    have hchild : Option.Rel (fun n n' => n' = Plan.splitPage pinned base n) (child? name ns)
        (child? name (Plan.splitPageAll pinned base ns)) := by
      rw [child?_splitPageAll]
      cases child? name ns with
      | none => exact .none
      | some n => exact .some rfl
    refine rel_bareAt?_cons hchild (fun n n' hn => ?_) fun n n' hn => ?_
    · subst hn
      rcases splitPage_eq pinned base n with heq | ⟨-, heq⟩ <;> rw [heq]
      · exact ⟨true, rfl, fun _ => rfl⟩
      · exact paged_refl
    · subst hn
      rcases splitPage_eq pinned base n with heq | ⟨-, heq⟩ <;> rw [heq]
      · exact rel_paged_refl _
      · exact ih _ _

/-- What holds of all nodes on the way along a path holds of the first one and of those below. -/
theorem forall_along_cons {P : List String → Include → Prop} (hc : child? hop ns = some c) :
    (∀ path, path <+: hop :: hops → ∀ n, bareAt? path ns = some n → P path n) ↔
      P [hop] c.bare ∧
        ∀ path, path <+: hops → ∀ n, bareAt? path c.includes = some n → P (hop :: path) n := by
  constructor
  · intro h
    refine ⟨h [hop] ⟨hops, rfl⟩ _ (congrArg (Option.map bare) hc), fun path hpath n hn => ?_⟩
    rcases path with _ | ⟨next, rest⟩
    · cases hn
    refine h _ (List.cons_prefix_cons.mpr ⟨rfl, hpath⟩) n ?_
    rwa [bareAt?_under, under_of_child? hc]
  · rintro ⟨hhere, hbelow⟩ path hpath n hn
    rcases path with _ | ⟨name, rest⟩
    · cases hn
    obtain ⟨rfl, hrest⟩ := List.cons_prefix_cons.mp hpath
    cases rest with
    | nil =>
      rw [bareAt?_singleton, hc] at hn
      exact Option.some.inj hn ▸ hhere
    | cons next rest =>
      rw [bareAt?_under, under_of_child? hc] at hn
      exact hbelow _ hrest n hn

/-- On a page a path is joined if it was and no node on it is cut off. -/
theorem joinedAlong_splitPageAll : JoinedAlong (Plan.splitPageAll pinned base ns) hops ↔
    JoinedAlong ns hops ∧
      ∀ path, path <+: hops → ∀ n, bareAt? path ns = some n → ¬Cut pinned (base ++ path) n := by
  induction hops generalizing base ns with
  | nil =>
    refine ⟨fun h => ⟨fun path hne hpath => (hne (List.prefix_nil.mp hpath)).elim, ?_⟩,
      fun _ path hne hpath => (hne (List.prefix_nil.mp hpath)).elim⟩
    intro path hpath n hn
    cases List.prefix_nil.mp hpath
    cases hn
  | cons hop hops ih =>
    rw [joinedAlong_cons, joinedAlong_cons, child?_splitPageAll]
    constructor
    · rintro ⟨n', hn', hs', hj⟩
      obtain ⟨n, hn, rfl⟩ := Option.map_eq_some_iff.mp hn'
      rcases splitPage_eq pinned base n with heq | ⟨hs, heq⟩
      · rw [heq] at hs'
        cases hs'
      · have hcut : ¬Cut pinned (base ++ [n.name]) n := by
          intro hcut
          rw [splitPage_of_cut (.inr hcut)] at hs'
          cases hs'
        rw [name_of_child? hn] at hcut heq
        rw [heq] at hj
        obtain ⟨hj, hbelow⟩ := ih.mp hj
        refine ⟨⟨n, hn, hs, hj⟩, (forall_along_cons hn).mpr ⟨cut_bare.not.mpr hcut, ?_⟩⟩
        simpa using hbelow
    · rintro ⟨⟨n, hn, hs, hj⟩, hcut⟩
      obtain ⟨hhere, hbelow⟩ := (forall_along_cons hn).mp hcut
      have hkept : ¬Cut pinned (base ++ [n.name]) n := by
        rw [name_of_child? hn]
        exact cut_bare.not.mp hhere
      have hsplit := splitPage_of_not_cut hs hkept
      rw [name_of_child? hn] at hsplit
      refine ⟨_, by rw [hn, Option.map_some], ?_, ?_⟩
      · rwa [hsplit]
      · rw [hsplit]
        exact ih.mpr ⟨hj, by simpa using hbelow⟩

/-! ## Lowering -/

/-- A node that was lowered: it has a filter if it had one. -/
def Lowered (n n' : Include) : Prop :=
  ∃ filter, n' = { n with filter } ∧ filter.isSome = n.filter.isSome

theorem lowered_of_lower (h : lower s m table n = .ok n') : Lowered n.bare n'.bare := by
  obtain ⟨assoc, t, filter, includes, -, hfilter, -, rfl⟩ := lower_eq_ok h
  refine ⟨filter, rfl, ?_⟩
  change filter.isSome = n.filter.isSome
  generalize n.filter = filter? at hfilter
  cases hfilter <;> rfl

theorem child?_lowerAll (h : lowerAll s m table ns = .ok ns') (name : String) :
    Option.Rel (fun n n' => lower s m table n = .ok n') (child? name ns) (child? name ns') := by
  cases hn : child? name ns with
  | none =>
    rw [child?_eq_none, ← names_lowerAll h, ← child?_eq_none] at hn
    rw [hn]
    exact .none
  | some n =>
    rw [lowerAll_eq_mapM] at h
    have hname : ∀ n n' : Include, lower s m table n = .ok n' →
        (n'.name == name) = (n.name == name) := by
      intro n n' hn'
      obtain ⟨assoc, t, filter, includes, -, -, -, rfl⟩ := lower_eq_ok hn'
      rfl
    obtain ⟨n', hfind, hn'⟩ := find?_mapM h hname hn
    rw [show child? name ns' = some n' from hfind]
    exact .some hn'

theorem lowered_lowerAll (h : lowerAll s m table ns = .ok ns') (path : List String) :
    Option.Rel Lowered (bareAt? path ns) (bareAt? path ns') := by
  induction path generalizing m table ns ns' with
  | nil => exact .none
  | cons name rest ih =>
    refine rel_bareAt?_cons (child?_lowerAll h name) (fun n n' => lowered_of_lower)
      fun n n' hn => ?_
    obtain ⟨assoc, t, filter, includes, -, -, hi, rfl⟩ := lower_eq_ok hn
    exact ih hi

theorem joinedAlong_lowerAll (h : lowerAll s m table ns = .ok ns') :
    JoinedAlong ns' hops ↔ JoinedAlong ns hops := by
  refine forall₃_congr fun path _ _ => ?_
  have hrel := lowered_lowerAll h path
  generalize bareAt? path ns = n?, bareAt? path ns' = n'? at hrel
  cases hrel with
  | none => simp
  | some hn =>
    obtain ⟨filter, rfl, -⟩ := hn
    simp

end RelQuery.Include

import RelQuery.Proofs.Filter.MergeAssoc
import RelQuery.Proofs.Plan.Merging

/-!
# Merging three plans

Three plans merge in either grouping exactly if each two of them do. The results have alike nodes at
the same paths if no filter has two different conjuncts on one key; otherwise their filters may
differ.
-/

namespace RelQuery

variable {s : Schema} {Q Q₁ Q₂ Q₃ : Model → Filter → Prop} {m m₁ m₂ m₃ : Model}

namespace Include

variable {a b c n : Include} {ns bs : List Include} {a? b? c? : Option Include} {x y z : Bool}

theorem compatible_bind {modifier : Include → Option Nat} :
    Compatible (a?.bind modifier) (b?.bind modifier) ↔
      ∀ a b, a? = some a → b? = some b → Compatible (modifier a) (modifier b) := by
  cases a? <;> cases b? <;> simp [Compatible]

/-- Pages are compared path by path, where a missing node gives none. -/
theorem samePages_iff : SamePages ns bs ↔ ∀ hops,
    Compatible ((bareAt? hops ns).bind limit) ((bareAt? hops bs).bind limit) ∧
      Compatible ((bareAt? hops ns).bind offset) ((bareAt? hops bs).bind offset) := by
  simp only [compatible_bind]
  refine forall_congr' fun hops => ⟨fun h => ?_, fun h a b ha hb => ?_⟩
  · exact ⟨fun a b ha hb => (h a b ha hb).limit, fun a b ha hb => (h a b ha hb).offset⟩
  · exact ⟨h.1 a b ha hb, h.2 a b ha hb⟩

theorem bind_limit_merge : ((Option.merge mergeBare a? b?).map (mark x)).bind limit =
    (a?.bind limit).or (b?.bind limit) := by
  cases a? <;> cases b? <;> simp [mergeBare, mark]

theorem bind_offset_merge : ((Option.merge mergeBare a? b?).map (mark x)).bind offset =
    (a?.bind offset).or (b?.bind offset) := by
  cases a? <;> cases b? <;> simp [mergeBare, mark]

/-! ## Three nodes -/

/-- A mark before a merge makes no difference to one after it. -/
theorem mark_merge_left (h : x = true → z = true) :
    (Option.merge mergeBare (a?.map (mark x)) b?).map (mark z) =
      (Option.merge mergeBare a? b?).map (mark z) := by
  cases x
  · simp
  · cases h rfl
    cases a? <;> cases b? <;> simp [mergeBare, mark]

theorem mark_merge_right (h : x = true → z = true) :
    (Option.merge mergeBare a? (b?.map (mark x))).map (mark z) =
      (Option.merge mergeBare a? b?).map (mark z) := by
  cases x
  · simp
  · cases h rfl
    cases a? <;> cases b? <;> simp [mergeBare, mark]

/-- A node that may be missing has a filter with at most one conjunct on each key. -/
def OnceAt (a? : Option Include) : Prop := ∀ n, a? = some n → Filter.AllSingle n.filter

theorem sameNode_mergeBare_assoc (ha : Filter.AllSingle a.filter) (hb : Filter.AllSingle b.filter)
    (hc : Filter.AllSingle c.filter) :
    SameNode (mergeBare (mergeBare a b) c) (mergeBare a (mergeBare b c)) where
  target := rfl
  name := rfl
  kind := rfl
  attributes x := by
    simp only [mergeBare, mem_foldl_addName]
    exact or_assoc
  filter _ _ _ _ _ := Filter.evalOption_merge?_assoc ha hb hc
  required := Bool.and_assoc _ _ _
  limit := Option.or_assoc
  offset := Option.or_assoc
  separate := Bool.or_assoc _ _ _

theorem rel_merge_assoc (ha : OnceAt a?) (hb : OnceAt b?) (hc : OnceAt c?) :
    Option.Rel SameNode (Option.merge mergeBare (Option.merge mergeBare a? b?) c?)
      (Option.merge mergeBare a? (Option.merge mergeBare b? c?)) := by
  cases a? with
  | none =>
    rw [Option.merge_none_left, Option.merge_none_left]
    exact rel_refl _
  | some a =>
    cases b? with
    | none =>
      rw [Option.merge_none_right, Option.merge_none_left]
      exact rel_refl _
    | some b =>
      cases c? with
      | none => exact .some (.refl _)
      | some c => exact .some (sameNode_mergeBare_assoc (ha a rfl) (hb b rfl) (hc c rfl))

end Include

namespace Plan

variable {a b c p q ab bc : Plan} {includes : List Include}

/-! ## Which plans merge -/

theorem MergeOf.samePages_left (h : MergeOf a b p includes) (hab : Mergeable a b)
    (ha : a.Regular s Q₁ m) (hb : b.Regular s Q₂ m) : Include.SamePages p.includes c.includes ↔
      Include.SamePages a.includes c.includes ∧ Include.SamePages b.includes c.includes := by
  have hab := Include.samePages_iff.mp hab.includes
  simp only [Include.samePages_iff, ← forall_and]
  refine forall_congr' fun hops => ?_
  rw [h.bareAt?_includes ha hb, Include.bind_limit_merge, Include.bind_offset_merge,
    compatible_or_left (hab hops).1, compatible_or_left (hab hops).2, and_and_and_comm]

/-- A plan merges with the merge of two if it merges with both. -/
theorem MergeOf.mergeable_iff (h : MergeOf a b p includes) (hab : Mergeable a b)
    (ha : a.Regular s Q₁ m) (hb : b.Regular s Q₂ m) :
    Mergeable p c ↔ Mergeable a c ∧ Mergeable b c := by
  have hpages := h.samePages_left (c := c) hab ha hb
  have hgroup := compatible_or_left (c := given? c.group) hab.group
  have horder := compatible_or_left (c := given? c.order) hab.order
  have hlimit := compatible_or_left (c := c.limit) hab.limit
  have hoffset := compatible_or_left (c := c.offset) hab.offset
  rw [← h.group] at hgroup
  rw [← h.order] at horder
  rw [← h.limit] at hlimit
  rw [← h.offset] at hoffset
  constructor
  · intro hc
    have hmodel := h.model.symm.trans hc.model
    exact ⟨⟨hmodel, (hpages.mp hc.includes).1, (hgroup.mp hc.group).1, (horder.mp hc.order).1,
        (hlimit.mp hc.limit).1, (hoffset.mp hc.offset).1⟩,
      ⟨hab.model.symm.trans hmodel, (hpages.mp hc.includes).2, (hgroup.mp hc.group).2,
        (horder.mp hc.order).2, (hlimit.mp hc.limit).2, (hoffset.mp hc.offset).2⟩⟩
  · rintro ⟨hac, hbc⟩
    exact ⟨h.model.trans hac.model, hpages.mpr ⟨hac.includes, hbc.includes⟩,
      hgroup.mpr ⟨hac.group, hbc.group⟩, horder.mpr ⟨hac.order, hbc.order⟩,
      hlimit.mpr ⟨hac.limit, hbc.limit⟩, hoffset.mpr ⟨hac.offset, hbc.offset⟩⟩

section
variable (ha : a.Regular s Q m₁) (hb : b.Regular s Q m₂) (hc : c.Regular s Q m₃)
  (hQ : Include.FilterClosed s Q)
include ha hb hc hQ

theorem exists_merge_left_iff : (∃ p, (merge a b >>= fun ab => merge ab c) = .ok p) ↔
    Mergeable a b ∧ Mergeable a c ∧ Mergeable b c := by
  simp only [bind_eq_ok]
  constructor
  · rintro ⟨p, ab, hab, hp⟩
    have hcompat := mergeable_of_merge ha hb hab
    cases (hcompat.model ▸ ha.model).symm.trans hb.model
    obtain ⟨includes, h⟩ := mergeOf_of_merge hab
    exact ⟨hcompat,
      (h.mergeable_iff hcompat ha hb).mp (mergeable_of_merge (ha.merge hQ hab hb) hc hp)⟩
  · rintro ⟨hcompat, hrest⟩
    cases (hcompat.model ▸ ha.model).symm.trans hb.model
    obtain ⟨ab, hab⟩ := hcompat.exists_merge ha hb
    obtain ⟨includes, h⟩ := mergeOf_of_merge hab
    obtain ⟨p, hp⟩ := ((h.mergeable_iff hcompat ha hb).mpr hrest).exists_merge
      (ha.merge hQ hab hb) hc
    exact ⟨p, ab, hab, hp⟩

theorem exists_merge_right_iff : (∃ p, (merge b c >>= fun bc => merge a bc) = .ok p) ↔
    Mergeable a b ∧ Mergeable a c ∧ Mergeable b c := by
  simp only [bind_eq_ok]
  constructor
  · rintro ⟨p, bc, hbc, hp⟩
    have hcompat := mergeable_of_merge hb hc hbc
    cases (hcompat.model ▸ hb.model).symm.trans hc.model
    obtain ⟨includes, h⟩ := mergeOf_of_merge hbc
    obtain ⟨hba, hca⟩ := (h.mergeable_iff hcompat hb hc).mp
      (mergeable_of_merge ha (hb.merge hQ hbc hc) hp).symm
    exact ⟨hba.symm, hca.symm, hcompat⟩
  · rintro ⟨hab, hac, hcompat⟩
    cases (hcompat.model ▸ hb.model).symm.trans hc.model
    obtain ⟨bc, hbc⟩ := hcompat.exists_merge hb hc
    obtain ⟨includes, h⟩ := mergeOf_of_merge hbc
    obtain ⟨p, hp⟩ := ((h.mergeable_iff hcompat hb hc).mpr ⟨hab.symm, hac.symm⟩).symm.exists_merge
      ha (hb.merge hQ hbc hc)
    exact ⟨p, bc, hbc, hp⟩

end

/-! ## What they merge into -/

/-- No filter of a plan has two different conjuncts on one key. -/
structure KeysOnce (p : Plan) : Prop where
  filter : ∀ f, p.filter = some f → f.KeysOnce
  includes : ∀ hops n f, Include.nodeAt? hops p.includes = some n → n.filter = some f → f.KeysOnce

/-- All filters of a regular plan are flat. -/
abbrev AllFlat (s : Schema) (m : Model) (p : Plan) : Prop := p.Regular s (fun _ f => f.Flat) m

theorem KeysOnce.allSingle (h : a.KeysOnce) (ha : a.AllFlat s m) : Filter.AllSingle a.filter :=
  fun f hf => ⟨ha.filter f hf, h.filter f hf⟩

theorem KeysOnce.onceAt (h : a.KeysOnce) (ha : a.AllFlat s m) (hops : List String) :
    Include.OnceAt (Include.bareAt? hops a.includes) := by
  intro n hn f hf
  obtain ⟨n, hnode, rfl⟩ := Option.map_eq_some_iff.mp hn
  obtain ⟨parent, hr, -⟩ := Include.rooted_of_nodeAt? ha.includes ha.includes hnode hnode
  obtain ⟨assoc, t, hfollow⟩ := hr.exists_follow
  exact ⟨hr.filter hfollow hf, h.includes hops n f hnode hf⟩

theorem any_negatedPaths_of_merge {hops : List String}
    (h : p.filter = Filter.merge? a.filter b.filter)
    (hx : (Filter.negatedPaths a.filter).any hops.isPrefixOf = true ∨
      (Filter.negatedPaths b.filter).any hops.isPrefixOf = true) :
    (Filter.negatedPaths p.filter).any hops.isPrefixOf = true := by
  simp only [List.any_eq_true] at hx ⊢
  rw [h]
  rcases hx with ⟨x, hx, hpath⟩ | ⟨x, hx, hpath⟩
  · exact ⟨x, Filter.mem_negatedPaths_merge?.mpr (.inl hx), hpath⟩
  · exact ⟨x, Filter.mem_negatedPaths_merge?.mpr (.inr hx), hpath⟩

section
variable {i₁ i₂ i₃ i₄ : List Include} (hab : MergeOf a b ab i₁) (hp : MergeOf ab c p i₂)
  (hbc : MergeOf b c bc i₃) (hq : MergeOf a bc q i₄)
include hab hp hbc hq

theorem negatedPaths_assoc (hops : List String) :
    hops ∈ Filter.negatedPaths p.filter ↔ hops ∈ Filter.negatedPaths q.filter := by
  rw [hp.filter, hq.filter, Filter.mem_negatedPaths_merge?, Filter.mem_negatedPaths_merge?,
    hab.filter, hbc.filter, Filter.mem_negatedPaths_merge?, Filter.mem_negatedPaths_merge?,
    or_assoc]

theorem sameNodes_assoc (ha : a.AllFlat s m) (hb : b.AllFlat s m) (hc : c.AllFlat s m)
    (hab' : ab.AllFlat s m) (hbc' : bc.AllFlat s m) (hoa : a.KeysOnce) (hob : b.KeysOnce)
    (hoc : c.KeysOnce) : Include.SameNodes p.includes q.includes := by
  intro hops
  rw [hp.bareAt?_includes hab' hc, hab.bareAt?_includes ha hb, hq.bareAt?_includes ha hbc',
    hbc.bareAt?_includes hb hc,
    Include.mark_merge_left fun hx => any_negatedPaths_of_merge hp.filter (.inl hx),
    Include.mark_merge_right fun hx => any_negatedPaths_of_merge hq.filter (.inr hx)]
  exact Include.rel_mark
    (Include.rel_merge_assoc (hoa.onceAt ha hops) (hob.onceAt hb hops) (hoc.onceAt hc hops))
    (any_congr_of_mem_iff (negatedPaths_assoc hab hp hbc hq))

/-- The merges in both groupings are alike if no filter has two different conjuncts on one key. -/
theorem alike_of_merge_assoc (ha : a.AllFlat s m) (hb : b.AllFlat s m) (hc : c.AllFlat s m)
    (hab' : ab.AllFlat s m) (hbc' : bc.AllFlat s m) (hp' : p.AllFlat s m) (hq' : q.AllFlat s m)
    (hoa : a.KeysOnce) (hob : b.KeysOnce) (hoc : c.KeysOnce) : Alike p q where
  model := hp.model.trans (hab.model.trans hq.model.symm)
  attributes item := by
    rw [hp.attributes, hq.attributes, mem_foldl_addItem, mem_foldl_addItem, hab.attributes,
      hbc.attributes, mem_foldl_addItem, mem_foldl_addItem, or_assoc]
  includes := Include.allAlike_of_sameNodes hp'.includes hq'.includes
    (sameNodes_assoc hab hp hbc hq ha hb hc hab' hbc' hoa hob hoc)
  filter _ _ _ _ _ := by
    rw [hp.filter, hq.filter, hab.filter, hbc.filter]
    exact Filter.evalOption_merge?_assoc (hoa.allSingle ha) (hob.allSingle hb) (hoc.allSingle hc)
  group := given?_injective (by rw [hp.group, hq.group, hab.group, hbc.group, Option.or_assoc])
  order := given?_injective (by rw [hp.order, hq.order, hab.order, hbc.order, Option.or_assoc])
  limit := by rw [hp.limit, hq.limit, hab.limit, hbc.limit, Option.or_assoc]
  offset := by rw [hp.offset, hq.offset, hab.offset, hbc.offset, Option.or_assoc]

end

theorem filterClosed_flat (s : Schema) : Include.FilterClosed s fun _ f => f.Flat where
  lacks _ := .comparison
  raw := .raw
  compile _ := Filter.kept_flat.compile
  all := .combine
  merge := Filter.kept_flat.merge?
  lower _ := Filter.kept_flat.lower

/-- Three plans merge in one grouping if they merge in the other. The results are alike, and say of
each key the disjunction of what the three plans say, if no filter has two different conjuncts on
one key. -/
theorem merge_assoc (ha : Planned s a) (hb : Planned s b) (hc : Planned s c) :
    ((∃ p, (merge a b >>= fun ab => merge ab c) = .ok p) ↔
      ∃ q, (merge b c >>= fun bc => merge a bc) = .ok q) ∧
    (a.KeysOnce → b.KeysOnce → c.KeysOnce → ∀ p q,
      (merge a b >>= fun ab => merge ab c) = .ok p →
      (merge b c >>= fun bc => merge a bc) = .ok q → Alike p q ∧
        ∀ (α : Type) [Lattice α] [BoundedOrder α] [Compl α] (v : Valuation α) key,
          Filter.opinion v p.filter key = Option.merge (· ⊔ ·)
            (Option.merge (· ⊔ ·) (Filter.opinion v a.filter key) (Filter.opinion v b.filter key))
            (Filter.opinion v c.filter key)) := by
  have hQ := filterClosed_flat s
  obtain ⟨m, ha⟩ := ha.regular hQ
  obtain ⟨m', hb⟩ := hb.regular hQ
  obtain ⟨m'', hc⟩ := hc.regular hQ
  refine ⟨(exists_merge_left_iff ha hb hc hQ).trans (exists_merge_right_iff ha hb hc hQ).symm, ?_⟩
  intro hoa hob hoc p q hp hq
  obtain ⟨ab, hab, hp⟩ := bind_eq_ok.mp hp
  obtain ⟨bc, hbc, hq⟩ := bind_eq_ok.mp hq
  cases ((mergeable_of_merge ha hb hab).model ▸ ha.model).symm.trans hb.model
  cases ((mergeable_of_merge hb hc hbc).model ▸ hb.model).symm.trans hc.model
  obtain ⟨i₁, h₁⟩ := mergeOf_of_merge hab
  obtain ⟨i₂, h₂⟩ := mergeOf_of_merge hp
  obtain ⟨i₃, h₃⟩ := mergeOf_of_merge hbc
  obtain ⟨i₄, h₄⟩ := mergeOf_of_merge hq
  have hab := ha.merge hQ hab hb
  have hbc := hb.merge hQ hbc hc
  refine ⟨alike_of_merge_assoc h₁ h₂ h₃ h₄ ha hb hc hab hbc (hab.merge hQ hp hc)
    (ha.merge hQ hq hbc) hoa hob hoc, fun α _ _ _ v key => ?_⟩
  have hsa := hoa.allSingle ha
  have hsb := hob.allSingle hb
  rw [h₂.filter, h₁.filter, Filter.opinion_merge? (hsa.merge? hsb) (hoc.allSingle hc),
    Filter.opinion_merge? hsa hsb]

end Plan

/-! ### Orders that do not have a status -/

def orders : Config where
  models := [{
    name := "Order"
    attributes := [{ name := "id", type := "INTEGER", primaryKey := true },
      { name := "status", type := "STRING" }] }]

def ordersSchema : Schema := ⟨orders.models.map (·.resolve), orders.options⟩

/-- A list of orders whose filter is a variable. -/
def ordersWhere : Field where
  name := "orders"
  arguments := [("query", .object [("where", .var "condition")])]
  selections := [.field "id" none [] []]

def ordersPlan (condition : Filter) : Plan where
  model := "Order"
  attributes := [.column "id"]
  filter := some condition

def refusal (status : String) : Document := .obj [("status", .obj [("_neOp", .str status)])]

def isNot (status : String) : Filter :=
  .comparison ⟨⟨[], "status", []⟩, .ne, .plain (.str status), some .string, false⟩

theorem rootList_ordersWhere {fields : Fields} {f : Filter}
    (h : Filter.compile ordersSchema "Order" (.obj fields) = .ok f) :
    Query.rootList ordersSchema "Order" ordersWhere { bindings := [("condition", .obj fields)] } =
      Plan.compose ordersSchema ⟨"Order", ["id"], ["id"], []⟩ (Filter.all [f]).proper?
        { filter := some (.obj fields) } := by
  change (do
    let fs ← (fun f => [f]) <$> Filter.compile ordersSchema "Order" (.obj fields)
    Plan.compose ordersSchema ⟨"Order", ["id"], ["id"], []⟩ (Filter.all (fs ++ [])).proper?
      { filter := some (.obj fields) }) = _
  rw [h]
  rfl

theorem rootList_refusal (status : String) :
    Query.rootList ordersSchema "Order" ordersWhere { bindings := [("condition", refusal status)] } =
      .ok (ordersPlan (isNot status)) := by
  have h : Filter.compile ordersSchema "Order" (refusal status) = .ok (isNot status) := by
    simp only [refusal, Filter.compile, Filter.compileValue, Filter.compileFields]
    rfl
  exact rootList_ordersWhere h

theorem keysOnce_refusal (status : String) : (ordersPlan (isNot status)).KeysOnce where
  filter f hf key g hg h hh := by
    cases hf
    cases List.mem_singleton.mp (Filter.mem_onKey.mp hg).1
    cases List.mem_singleton.mp (Filter.mem_onKey.mp hh).1
    rfl
  includes hops n f hn := by
    rcases hops with _ | ⟨_, _ | ⟨_, _⟩⟩ <;> cases hn

/-- A third status extends the alternatives of the first two. -/
theorem ordersPlan_merge_assoc : ∃ p q,
    (Plan.merge (ordersPlan (isNot "paid")) (ordersPlan (isNot "open")) >>= fun ab =>
      Plan.merge ab (ordersPlan (isNot "void"))) = .ok p ∧
    (Plan.merge (ordersPlan (isNot "open")) (ordersPlan (isNot "void")) >>= fun bc =>
      Plan.merge (ordersPlan (isNot "paid")) bc) = .ok q ∧ Plan.Alike p q := by
  obtain ⟨-, h⟩ := Plan.merge_assoc (.rootList (rootList_refusal "paid"))
    (.rootList (rootList_refusal "open")) (.rootList (rootList_refusal "void"))
  exact ⟨_, _, rfl, rfl, (h (keysOnce_refusal _) (keysOnce_refusal _) (keysOnce_refusal _) _ _ rfl
    rfl).1⟩

/-! ### Orders that have neither of two statuses -/

def bothRefusals : Document := .obj [("_andOp", .arr [refusal "paid", refusal "open"])]

def isNeither : Filter := .logical .and [isNot "paid", isNot "open"]

theorem rootList_bothRefusals :
    Query.rootList ordersSchema "Order" ordersWhere { bindings := [("condition", bothRefusals)] } =
      .ok (ordersPlan isNeither) := by
  have h : Filter.compile ordersSchema "Order" bothRefusals = .ok isNeither := by
    simp only [bothRefusals, refusal, Filter.compile, Filter.compileValue, Filter.compileFields,
      Filter.compileItems]
    rfl
  exact rootList_ordersWhere h

def Operand.isSent : Operand → Bool
  | .plain (.str status) => status == "sent"
  | _ => false

theorem Operand.isSent_congr {a b : Operand} (h : a.same b = true) : a.isSent = b.isSent := by
  cases a with
  | cast => cases b with
    | cast => rfl
    | plain => cases h
  | plain a => cases b with
    | cast => cases h
    | plain b => cases a with
      | str x => cases b with
        | str y =>
          have hxy : x = y := beq_iff_eq.mp h
          rw [hxy]
        | _ => cases h
      | _ => cases b <;> first | rfl | cases h

/-- An order that is sent. -/
def sentRow : Valuation Bool where
  comparison c := !c.operand.isSent
  computed _ := true
  raw _ := true
  comparison_congr {a b} h := by
    change (a.path == b.path && a.operator == b.operator && a.operand.same b.operand &&
      a.type == b.type && a.negated == b.negated) = true at h
    simp only [Bool.and_eq_true] at h
    rw [Operand.isSent_congr h.1.1.2]

/-- The first two merge into an alternative that has no key. A sent order is let through if the third
is merged into the second before. -/
theorem merge_isNeither_not_alike :
    Plan.Planned ordersSchema (ordersPlan isNeither) ∧
    Plan.Planned ordersSchema (ordersPlan (isNot "void")) ∧
    Plan.Planned ordersSchema (ordersPlan (isNot "sent")) ∧ ∃ p q,
    (Plan.merge (ordersPlan isNeither) (ordersPlan (isNot "void")) >>= fun ab =>
      Plan.merge ab (ordersPlan (isNot "sent"))) = .ok p ∧
    (Plan.merge (ordersPlan (isNot "void")) (ordersPlan (isNot "sent")) >>= fun bc =>
      Plan.merge (ordersPlan isNeither) bc) = .ok q ∧
    ¬Filter.Equivalent p.filter q.filter := by
  refine ⟨.rootList rootList_bothRefusals, .rootList (rootList_refusal "void"),
    .rootList (rootList_refusal "sent"), _, _, rfl, rfl, fun h => ?_⟩
  have hsent : false = true := h Bool sentRow
  cases hsent

end RelQuery

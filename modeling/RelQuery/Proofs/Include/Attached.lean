import RelQuery.Proofs.Include.Positions
import RelQuery.Proofs.Include.Settled

/-!
# What an attached path leaves

A path is attached to trees that are there already, for a filter, an order or an anti-join. It only
adds: every node stays at its position with all that it has, and can at most become an inner join,
and the nodes that are new are bare nodes of the hops. Attaching a path a second time does nothing,
and two paths can be attached in either order, up to the order of siblings. None of this needs the
siblings to be distinct: a path always goes through the first node for its hop.
-/

namespace RelQuery.Include

variable {s : Schema} {m t : Model} {assoc : Association} {n n' n₁ n₂ : Include}
  {ns ns' ns₁ ns₂ cs : List Include} {a? b? : Option Include} {hop : String}
  {hops hops₁ hops₂ : List String} {i j : Nat} {is : List Nat}
  {required required₁ required₂ : Bool} {on on' : Association → Model → Prop}

/-! ## One position -/

theorem findIdx?_append_cons {p : Include → Bool} {l r : List Include}
    (hl : ∀ c ∈ l, p c = false) (hn : p n = true) :
    (l ++ n :: r).findIdx? p = some l.length := by
  rw [List.findIdx?_append, List.findIdx?_eq_none_iff.mpr hl, List.findIdx?_cons, hn]
  simp

/-- The node that was changed or added is the first one with the property, and all others are at
their positions. -/
theorem exists_position_of_upsert {p : Include → Bool}
    {change : Include → Except PlanError Include} {node : Include}
    (h : upsert p change (change node) ns = .ok ns') (hnode : p node = true)
    (hp : ∀ n n', change n = .ok n' → p n' = p n) : ∃ i n',
      ns'.findIdx? p = some i ∧ ns'[i]? = some n' ∧ change (ns[i]?.getD node) = .ok n' ∧
        ∀ j ≠ i, ns'[j]? = ns[j]? := by
  rcases upsert_eq_ok h with ⟨l, n, r, n', rfl, hl, hn, hc, rfl⟩ | ⟨hall, n', hn, rfl⟩
  · refine ⟨l.length, n', findIdx?_append_cons hl ((hp n n' hc).trans hn), by simp, by simpa, ?_⟩
    intro j hj
    rcases Nat.lt_or_gt_of_ne hj with hlt | hgt
    · rw [List.getElem?_append_left hlt, List.getElem?_append_left hlt]
    · obtain ⟨k, rfl⟩ := Nat.exists_eq_add_of_lt hgt
      simp [List.getElem?_append_right, Nat.add_assoc]
  · refine ⟨ns.length, n', findIdx?_append_cons hall ((hp node n' hn).trans hnode), by simp,
      by simpa, ?_⟩
    intro j hj
    rcases Nat.lt_or_gt_of_ne hj with hlt | hgt
    · rw [List.getElem?_append_left hlt]
    · have hlen : (ns ++ [n']).length ≤ j := by rwa [List.length_append]
      rw [List.getElem?_eq_none hlen, List.getElem?_eq_none (Nat.le_of_lt hgt)]

/-- A path that is attached goes on below the first node for its first hop, which is new if there
was none. The other nodes stay as they are. -/
theorem exists_position_of_ensurePath (h : ensurePath s required (hop :: hops) m ns = .ok ns') :
    ∃ assoc t i n', s.follow m hop = .ok (assoc, t) ∧
      ns'.findIdx? (hopNode assoc t).sameJoin = some i ∧ ns'[i]? = some n' ∧
      extendNode s required hops assoc t (ns[i]?.getD (hopNode assoc t)) = .ok n' ∧
      ∀ j ≠ i, ns'[j]? = ns[j]? := by
  obtain ⟨assoc, t, hf, h⟩ := ensurePath_cons_eq_ok h
  obtain ⟨i, n', hfind, hn', hchange, hne⟩ :=
    exists_position_of_upsert h sameJoin_self fun n n' => sameJoin_extendNode
  exact ⟨assoc, t, i, n', hf, hfind, hn', hchange, hne⟩

/-! ## Positions on a path -/

/-- The node at a position is that of one of the hops from `m` on, which leads to a model by an
association. It is reached through the first node for each hop before. -/
inductive OnHops (s : Schema) : Model → List String → List Include → List Nat → Association →
    Model → Prop
  | here {m t : Model} {hop : String} {hops : List String} {ns : List Include} {i : Nat}
      {assoc : Association} : s.follow m hop = .ok (assoc, t) →
      ns.findIdx? (hopNode assoc t).sameJoin = some i → OnHops s m (hop :: hops) ns [i] assoc t
  | under {m t t' : Model} {hop : String} {hops : List String} {ns : List Include} {i : Nat}
      {is : List Nat} {assoc assoc' : Association} {n : Include} :
      s.follow m hop = .ok (assoc, t) → ns.findIdx? (hopNode assoc t).sameJoin = some i →
      ns[i]? = some n → OnHops s t hops n.includes is assoc' t' →
      OnHops s m (hop :: hops) ns (i :: is) assoc' t'

section
variable (hf : s.follow m hop = .ok (assoc, t))
  (hfind : ns.findIdx? (hopNode assoc t).sameJoin = some i)
include hf hfind

/-- Only one position is that of the first hop. -/
theorem OnHops.eq_first {assoc' : Association} {t' : Model}
    (h : OnHops s m (hop :: hops) ns (j :: is) assoc' t') : j = i := by
  cases h with
  | here hf' hfind' | under hf' hfind' _ _ =>
    cases hf.symm.trans hf'
    exact Option.some.inj (hfind'.symm.trans hfind)

theorem onHops_below {assoc' : Association} {t' : Model} (hn : ns[i]? = some n) :
    OnHops s m (hop :: hops) ns (i :: j :: is) assoc' t' ↔
      OnHops s t hops n.includes (j :: is) assoc' t' := by
  constructor
  · intro h
    cases h with
    | under hf' _ hn' hbelow =>
      cases hf.symm.trans hf'
      cases hn.symm.trans hn'
      exact hbelow
  · exact .under hf hfind hn

end

/-! ## What is there now -/

/-- A place after a path was attached: its node with all that it had, an inner join now if it is for
a hop and this was asked for, or the bare node of a hop. -/
inductive AttachedAt (required : Bool) (on : Association → Model → Prop) :
    Option Include → Option Include → Prop
  | kept {n n' : Include} {inner : Bool} : n'.bare = mark inner n.bare →
      (inner = true ↔ required = true ∧ ∃ assoc t, on assoc t) →
      AttachedAt required on (some n) (some n')
  | added {n' : Include} {assoc : Association} {t : Model} :
      n'.bare = mark required (hopNode assoc t) → on assoc t → AttachedAt required on none (some n')
  | none : AttachedAt required on none none

namespace AttachedAt

/-- Off the path nothing changes. -/
theorem refl (a? : Option Include) (hon : ∀ assoc t, ¬on assoc t) :
    AttachedAt required on a? a? := by
  cases a? with
  | none => exact .none
  | some n =>
    have hinner : false = true ↔ required = true ∧ ∃ assoc t, on assoc t :=
      ⟨nofun, fun ⟨_, assoc, t, h⟩ => (hon assoc t h).elim⟩
    exact .kept (by rw [mark_false, id]) hinner

theorem congr (h : AttachedAt required on a? b?) (hon : ∀ assoc t, on' assoc t ↔ on assoc t) :
    AttachedAt required on' a? b? := by
  rwa [show on' = on from funext fun assoc => funext fun t => propext (hon assoc t)]

/-- The node of a hop that was extended. -/
theorem extendNode (hn' : extendNode s required hops assoc t (a?.getD (hopNode assoc t)) = .ok n')
    (hon : on assoc t) : AttachedAt required on a? (some n') := by
  obtain ⟨-, includes, -, rfl⟩ := extendNode_eq_ok hn'
  cases a? with
  | none => exact .added rfl hon
  | some n =>
    have hinner : required = true ↔ required = true ∧ ∃ assoc t, on assoc t :=
      ⟨fun h => ⟨h, assoc, t, hon⟩, And.left⟩
    exact .kept rfl hinner

end AttachedAt

/-- Nodes with a path attached to them, position by position. -/
def Attached (s : Schema) (required : Bool) (m : Model) (hops : List String)
    (ns ns' : List Include) : Prop :=
  ∀ is, AttachedAt required (OnHops s m hops ns' is) (at? is ns) (at? is ns')

theorem attached_of_ensurePath (h : ensurePath s required hops m ns = .ok ns') :
    Attached s required m hops ns ns' := by
  induction hops generalizing m ns ns' with
  | nil =>
    cases h
    exact fun is => .refl _ fun _ _ => nofun
  | cons hop hops ih =>
    obtain ⟨assoc, t, i, n', hf, hfind, hn', hchange, hne⟩ := exists_position_of_ensurePath h
    rintro (_ | ⟨j, is⟩)
    · exact .none
    by_cases hj : j = i
    · subst hj
      cases is with
      | nil =>
        have hhere : AttachedAt required (OnHops s m (hop :: hops) ns' [j]) ns[j]? (some n') :=
          .extendNode hchange (.here hf hfind)
        rwa [← hn'] at hhere
      | cons k ks =>
        obtain ⟨-, includes, hi, rfl⟩ := extendNode_eq_ok hchange
        have hbelow : AttachedAt required (OnHops s m (hop :: hops) ns' (j :: k :: ks)) _ _ :=
          (ih hi (k :: ks)).congr fun assoc' t' => onHops_below hf hfind hn'
        -- There was nothing below a node that is new.
        have hbefore : at? (j :: k :: ks) ns =
            at? (k :: ks) (ns[j]?.getD (hopNode assoc t)).includes := by
          cases hn : ns[j]? with
          | none => rw [at?_cons_cons, hn, Option.bind_none, Option.getD_none, hopNode, at?_nil]
          | some n => rw [at?_below hn, Option.getD_some]
        rwa [hbefore, at?_below hn']
    · rw [at?_congr (hne j hj)]
      exact .refl _ fun assoc' t' hon => hj (hon.eq_first hf hfind)

/-! ## The same path again -/

theorem extendNode_idem
    (H : ∀ {ns ns'}, ensurePath s required hops t ns = .ok ns' →
      ensurePath s required hops t ns' = .ok ns')
    (h : extendNode s required hops assoc t n = .ok n') :
    extendNode s required hops assoc t n' = .ok n' := by
  obtain ⟨hs, includes, hi, rfl⟩ := extendNode_eq_ok h
  unfold extendNode
  rw [if_neg (Bool.eq_false_iff.mp hs), H hi, ok_bind, Bool.or_assoc, Bool.or_self]
  rfl

/-- A path that is attached need not be attached again. -/
theorem ensurePath_idem (h : ensurePath s required hops m ns = .ok ns') :
    ensurePath s required hops m ns' = .ok ns' := by
  induction hops generalizing m ns ns' with
  | nil => rfl
  | cons hop hops ih =>
    obtain ⟨assoc, t, hf, h⟩ := ensurePath_cons_eq_ok h
    obtain ⟨n', hn', hfind⟩ :=
      find?_upsert_changed h (fun n n' => sameJoin_extendNode) sameJoin_self
    rw [ensurePath_cons hf]
    exact upsert_self hfind (extendNode_idem ih hn')

/-! ## Two paths in either order -/

/-- The same trees up to the order of siblings, at every depth. -/
inductive Reordered : List Include → List Include → Prop
  | nil : Reordered [] []
  | cons {n n' : Include} {ns ns' : List Include} : n.bare = n'.bare →
      Reordered n.includes n'.includes → Reordered ns ns' → Reordered (n :: ns) (n' :: ns')
  | swap (a b : Include) (ns : List Include) : Reordered (a :: b :: ns) (b :: a :: ns)
  | trans {ns₁ ns₂ ns₃ : List Include} :
      Reordered ns₁ ns₂ → Reordered ns₂ ns₃ → Reordered ns₁ ns₃

namespace Reordered

theorem refl_of (H : ∀ n ∈ ns, Reordered n.includes n.includes) : Reordered ns ns := by
  induction ns with
  | nil => exact .nil
  | cons n ns ih =>
    rw [List.forall_mem_cons] at H
    exact .cons rfl H.1 (ih H.2)

theorem refl (ns : List Include) : Reordered ns ns := by
  have hbelow (n : Include) : Reordered n.includes n.includes := by
    induction n with
    | node n ih => exact refl_of ih
  exact refl_of fun n _ => hbelow n

theorem of_perm (h : ns.Perm ns') : Reordered ns ns' := by
  induction h with
  | nil => exact .nil
  | cons n _ ih => exact .cons rfl (.refl _) ih
  | swap a b ns => exact .swap b a ns
  | trans _ _ ih ih' => exact ih.trans ih'

end Reordered

/-- Changes of nodes for different joins can be made in either order; nodes that they add may come
to stand in the other order. -/
theorem upsert_comm_of_ne {p q : Include → Bool} {f g : Include → Except PlanError Include}
    {a b : Except PlanError Include} (hpq : ∀ n, p n = true → q n = false)
    (hf : ∀ n n', f n = .ok n' → q n' = q n) (hg : ∀ n n', g n = .ok n' → p n' = p n)
    (ha : ∀ n, a = .ok n → q n = false) (hb : ∀ n, b = .ok n → p n = false)
    (h₁ : upsert p f a ns = .ok ns₁) (h₂ : upsert q g b ns = .ok ns₂) : ∃ ns₁₂ ns₂₁,
      upsert q g b ns₁ = .ok ns₁₂ ∧ upsert p f a ns₂ = .ok ns₂₁ ∧ ns₁₂.Perm ns₂₁ := by
  induction ns generalizing ns₁ ns₂ with
  | nil =>
    obtain ⟨x, hx, rfl⟩ := upsert_nil_eq_ok.mp h₁
    obtain ⟨y, hy, rfl⟩ := upsert_nil_eq_ok.mp h₂
    exact ⟨[x, y], [y, x],
      upsert_cons_eq_ok.mpr (.inr ⟨ha x hx, [y], upsert_nil_eq_ok.mpr ⟨y, hy, rfl⟩, rfl⟩),
      upsert_cons_eq_ok.mpr (.inr ⟨hb y hy, [x], upsert_nil_eq_ok.mpr ⟨x, hx, rfl⟩, rfl⟩),
      .swap y x []⟩
  | cons n ns ih =>
    rcases upsert_cons_eq_ok.mp h₁ with ⟨hp, x, hx, rfl⟩ | ⟨hp, r₁, hr₁, rfl⟩
    · obtain ⟨hq, -⟩ | ⟨hq, r₂, hr₂, rfl⟩ := upsert_cons_eq_ok.mp h₂
      · exact absurd hq (Bool.eq_false_iff.mp (hpq n hp))
      · exact ⟨x :: r₂, x :: r₂,
          upsert_cons_eq_ok.mpr (.inr ⟨(hf n x hx).trans hq, r₂, hr₂, rfl⟩),
          upsert_cons_eq_ok.mpr (.inl ⟨hp, x, hx, rfl⟩), .refl _⟩
    · obtain ⟨hq, y, hy, rfl⟩ | ⟨hq, r₂, hr₂, rfl⟩ := upsert_cons_eq_ok.mp h₂
      · exact ⟨y :: r₁, y :: r₁, upsert_cons_eq_ok.mpr (.inl ⟨hq, y, hy, rfl⟩),
          upsert_cons_eq_ok.mpr (.inr ⟨(hg n y hy).trans hp, r₁, hr₁, rfl⟩), .refl _⟩
      · obtain ⟨r₁₂, r₂₁, h₁₂, h₂₁, hperm⟩ := ih hr₁ hr₂
        exact ⟨n :: r₁₂, n :: r₂₁, upsert_cons_eq_ok.mpr (.inr ⟨hq, r₁₂, h₁₂, rfl⟩),
          upsert_cons_eq_ok.mpr (.inr ⟨hp, r₂₁, h₂₁, rfl⟩), hperm.cons n⟩

/-- Changes of the node for one join can be made in either order if this is so for each node. -/
theorem upsert_comm_of_eq {p : Include → Bool} {f g : Include → Except PlanError Include}
    {node : Include} (hnode : p node = true)
    (hf : ∀ n n', f n = .ok n' → p n' = p n) (hg : ∀ n n', g n = .ok n' → p n' = p n)
    (H : ∀ n n₁ n₂, f n = .ok n₁ → g n = .ok n₂ → ∃ n₁₂ n₂₁, g n₁ = .ok n₁₂ ∧ f n₂ = .ok n₂₁ ∧
      n₁₂.bare = n₂₁.bare ∧ Reordered n₁₂.includes n₂₁.includes)
    (h₁ : upsert p f (f node) ns = .ok ns₁) (h₂ : upsert p g (g node) ns = .ok ns₂) :
    ∃ ns₁₂ ns₂₁, upsert p g (g node) ns₁ = .ok ns₁₂ ∧ upsert p f (f node) ns₂ = .ok ns₂₁ ∧
      Reordered ns₁₂ ns₂₁ := by
  -- The first node with the property, or the one that both add.
  have hhead : ∀ {n n₁ n₂ rest}, p n = true → f n = .ok n₁ → g n = .ok n₂ → ∃ ns₁₂ ns₂₁,
      upsert p g (g node) (n₁ :: rest) = .ok ns₁₂ ∧ upsert p f (f node) (n₂ :: rest) = .ok ns₂₁ ∧
        Reordered ns₁₂ ns₂₁ := by
    intro n n₁ n₂ rest hp hn₁ hn₂
    obtain ⟨n₁₂, n₂₁, h₁₂, h₂₁, hbare, hbelow⟩ := H n n₁ n₂ hn₁ hn₂
    exact ⟨n₁₂ :: rest, n₂₁ :: rest,
      upsert_cons_eq_ok.mpr (.inl ⟨(hf n n₁ hn₁).trans hp, n₁₂, h₁₂, rfl⟩),
      upsert_cons_eq_ok.mpr (.inl ⟨(hg n n₂ hn₂).trans hp, n₂₁, h₂₁, rfl⟩),
      .cons hbare hbelow (.refl rest)⟩
  induction ns generalizing ns₁ ns₂ with
  | nil =>
    obtain ⟨n₁, hn₁, rfl⟩ := upsert_nil_eq_ok.mp h₁
    obtain ⟨n₂, hn₂, rfl⟩ := upsert_nil_eq_ok.mp h₂
    exact hhead hnode hn₁ hn₂
  | cons n ns ih =>
    rcases upsert_cons_eq_ok.mp h₁ with ⟨hp, n₁, hn₁, rfl⟩ | ⟨hp, r₁, hr₁, rfl⟩
    · obtain ⟨-, n₂, hn₂, rfl⟩ | ⟨hp', -⟩ := upsert_cons_eq_ok.mp h₂
      · exact hhead hp hn₁ hn₂
      · exact absurd hp (Bool.eq_false_iff.mp hp')
    · obtain ⟨hp', -⟩ | ⟨-, r₂, hr₂, rfl⟩ := upsert_cons_eq_ok.mp h₂
      · exact absurd hp' (Bool.eq_false_iff.mp hp)
      · obtain ⟨r₁₂, r₂₁, h₁₂, h₂₁, hreordered⟩ := ih hr₁ hr₂
        exact ⟨n :: r₁₂, n :: r₂₁, upsert_cons_eq_ok.mpr (.inr ⟨hp, r₁₂, h₁₂, rfl⟩),
          upsert_cons_eq_ok.mpr (.inr ⟨hp, r₂₁, h₂₁, rfl⟩), .cons rfl (.refl _) hreordered⟩

/-- Two paths below one node can be attached in either order if this is so for the nodes below. -/
theorem extendNode_comm
    (H : ∀ {ns ns₁ ns₂}, ensurePath s required₁ hops₁ t ns = .ok ns₁ →
      ensurePath s required₂ hops₂ t ns = .ok ns₂ → ∃ ns₁₂ ns₂₁,
        ensurePath s required₂ hops₂ t ns₁ = .ok ns₁₂ ∧
        ensurePath s required₁ hops₁ t ns₂ = .ok ns₂₁ ∧ Reordered ns₁₂ ns₂₁)
    (h₁ : extendNode s required₁ hops₁ assoc t n = .ok n₁)
    (h₂ : extendNode s required₂ hops₂ assoc t n = .ok n₂) : ∃ n₁₂ n₂₁,
      extendNode s required₂ hops₂ assoc t n₁ = .ok n₁₂ ∧
      extendNode s required₁ hops₁ assoc t n₂ = .ok n₂₁ ∧ n₁₂.bare = n₂₁.bare ∧
      Reordered n₁₂.includes n₂₁.includes := by
  obtain ⟨hs, includes₁, hi₁, rfl⟩ := extendNode_eq_ok h₁
  obtain ⟨-, includes₂, hi₂, rfl⟩ := extendNode_eq_ok h₂
  obtain ⟨ns₁₂, ns₂₁, h₁₂, h₂₁, hreordered⟩ := H hi₁ hi₂
  refine ⟨{ n with required := n.required || required₁ || required₂, includes := ns₁₂ },
    { n with required := n.required || required₂ || required₁, includes := ns₂₁ }, ?_, ?_, ?_,
    hreordered⟩
  · simp [extendNode, hs, h₁₂, pure, Except.pure]
  · simp [extendNode, hs, h₂₁, pure, Except.pure]
  · simp [bare, Bool.or_assoc, Bool.or_comm required₂]

/-- No node is for two different hops. -/
theorem sameJoin_eq_false {hop₁ hop₂ : String} {assoc₁ assoc₂ : Association} {t₁ t₂ : Model}
    (hf₁ : s.follow m hop₁ = .ok (assoc₁, t₁)) (hf₂ : s.follow m hop₂ = .ok (assoc₂, t₂))
    (hne : hop₁ ≠ hop₂) (h : (hopNode assoc₁ t₁).sameJoin n = true) :
    (hopNode assoc₂ t₂).sameJoin n = false := by
  rw [Bool.eq_false_iff]
  intro h'
  exact hne ((name_of_sameJoin hf₁ h).symm.trans (name_of_sameJoin hf₂ h'))

theorem ensurePath_comm (h₁ : ensurePath s required₁ hops₁ m ns = .ok ns₁)
    (h₂ : ensurePath s required₂ hops₂ m ns = .ok ns₂) : ∃ ns₁₂ ns₂₁,
      ensurePath s required₂ hops₂ m ns₁ = .ok ns₁₂ ∧
      ensurePath s required₁ hops₁ m ns₂ = .ok ns₂₁ ∧ Reordered ns₁₂ ns₂₁ := by
  induction hops₁ generalizing hops₂ m ns ns₁ ns₂ with
  | nil =>
    cases h₁
    exact ⟨ns₂, ns₂, h₂, rfl, .refl ns₂⟩
  | cons hop₁ hops₁ ih =>
    cases hops₂ with
    | nil =>
      cases h₂
      exact ⟨ns₁, ns₁, rfl, h₁, .refl ns₁⟩
    | cons hop₂ hops₂ =>
      obtain ⟨assoc₁, t₁, hf₁, h₁⟩ := ensurePath_cons_eq_ok h₁
      obtain ⟨assoc₂, t₂, hf₂, h₂⟩ := ensurePath_cons_eq_ok h₂
      simp only [ensurePath_cons hf₁, ensurePath_cons hf₂]
      by_cases hhop : hop₁ = hop₂
      · subst hhop
        cases hf₁.symm.trans hf₂
        exact upsert_comm_of_eq sameJoin_self (fun n n' => sameJoin_extendNode)
          (fun n n' => sameJoin_extendNode) (fun n n₁ n₂ => extendNode_comm ih) h₁ h₂
      · have hne := sameJoin_eq_false hf₁ hf₂ hhop sameJoin_self
        have hne' := sameJoin_eq_false hf₂ hf₁ (Ne.symm hhop) sameJoin_self
        obtain ⟨ns₁₂, ns₂₁, h₁₂, h₂₁, hperm⟩ := upsert_comm_of_ne
          (fun n => sameJoin_eq_false hf₁ hf₂ hhop)
          (fun n n' => sameJoin_extendNode) (fun n n' => sameJoin_extendNode)
          (fun n hn => (sameJoin_extendNode hn).trans hne)
          (fun n hn => (sameJoin_extendNode hn).trans hne') h₁ h₂
        exact ⟨ns₁₂, ns₂₁, h₁₂, h₂₁, .of_perm hperm⟩

/-! ### Success in either order -/

/-- A path that can be attached after another can be attached without it. -/
theorem exists_ensurePath_before (h₁ : ensurePath s required₁ hops₁ m ns = .ok ns₁)
    (h₂ : ensurePath s required₂ hops₂ m ns₁ = .ok ns') :
    ∃ ns₂, ensurePath s required₂ hops₂ m ns = .ok ns₂ := by
  induction hops₁ generalizing hops₂ m ns ns₁ ns' with
  | nil =>
    cases h₁
    exact ⟨ns', h₂⟩
  | cons hop₁ hops₁ ih =>
    cases hops₂ with
    | nil => exact ⟨ns, rfl⟩
    | cons hop₂ hops₂ =>
      obtain ⟨assoc₁, t₁, hf₁, h₁⟩ := ensurePath_cons_eq_ok h₁
      obtain ⟨assoc₂, t₂, hf₂, h₂⟩ := ensurePath_cons_eq_ok h₂
      obtain ⟨n', hn'⟩ := exists_upsert_iff.mp ⟨ns', h₂⟩
      rw [ensurePath_cons hf₂]
      refine exists_upsert_iff.mpr ?_
      by_cases hhop : hop₁ = hop₂
      · subst hhop
        cases hf₁.symm.trans hf₂
        obtain ⟨n₁, hn₁, hfind⟩ :=
          find?_upsert_changed h₁ (fun n n' => sameJoin_extendNode) sameJoin_self
        obtain ⟨hs, includes₁, hi₁, rfl⟩ := extendNode_eq_ok hn₁
        rw [hfind] at hn'
        obtain ⟨-, includes, hi, rfl⟩ := extendNode_eq_ok hn'
        exact exists_extendNode hs (ih hi₁ hi)
      · rw [find?_upsert_of_ne h₁ (fun n => sameJoin_eq_false hf₁ hf₂ hhop)
          (fun n n' => sameJoin_extendNode) (sameJoin_eq_false hf₁ hf₂ hhop sameJoin_self)] at hn'
        exact ⟨n', hn'⟩

/-! ## Attaching paths only adds -/

/-- A path leaves every node where it was with all that it had, and can make it an inner join if it
is on the way; new are bare nodes of its hops. The same path again does nothing. Another one can be
attached after it exactly if it can be attached without it, and then in either order, with the same
trees up to the order of siblings. -/
theorem ensurePath_only_adds (h : ensurePath s required hops m ns = .ok ns') :
    Attached s required m hops ns ns' ∧ ensurePath s required hops m ns' = .ok ns' ∧
    (∀ required₂ hops₂ ns₂, ensurePath s required₂ hops₂ m ns = .ok ns₂ → ∃ a b,
      ensurePath s required₂ hops₂ m ns' = .ok a ∧ ensurePath s required hops m ns₂ = .ok b ∧
      Reordered a b) ∧
    ∀ required₂ hops₂ a, ensurePath s required₂ hops₂ m ns' = .ok a →
      ∃ ns₂, ensurePath s required₂ hops₂ m ns = .ok ns₂ :=
  ⟨attached_of_ensurePath h, ensurePath_idem h, fun _ _ _ h₂ => ensurePath_comm h h₂,
    fun _ _ _ h₂ => exists_ensurePath_before h h₂⟩

/-! ### The parent and the friend of every child -/

def villager : Model :=
  ⟨"Villager", "villagers", [⟨"id", "id", .integer, false, true, none⟩],
    [⟨"children", .hasMany, "Villager", "Villager", "parentId", none, none⟩,
      ⟨"parent", .belongsTo, "Villager", "Villager", "parentId", none, none⟩,
      ⟨"friend", .belongsTo, "Villager", "Villager", "friendId", none, none⟩]⟩

def village : Schema := ⟨[villager], {}⟩

def childNodes (required : Bool) (includes : List Include) : List Include :=
  [{ target := "Villager", name := "children", kind := .hasMany, attributes := ["id"], includes,
     required }]

def parentNode (required : Bool) : Include :=
  { target := "Villager", name := "parent", kind := .belongsTo, required }

def friendNode : Include := { target := "Villager", name := "friend", kind := .belongsTo }

theorem parent_and_friend :
    ensurePath village true ["children", "parent"] villager (childNodes false []) =
      .ok (childNodes true [parentNode true]) ∧
    Attached village true villager ["children", "parent"] (childNodes false [])
      (childNodes true [parentNode true]) ∧
    ensurePath village true ["children", "parent"] villager (childNodes true [parentNode true]) =
      .ok (childNodes true [parentNode true]) ∧
    Reordered (childNodes true [parentNode true, friendNode])
      (childNodes true [friendNode, parentNode true]) := by
  have h : ensurePath village true ["children", "parent"] villager (childNodes false []) =
      .ok (childNodes true [parentNode true]) := rfl
  have h₂ : ensurePath village false ["children", "friend"] villager (childNodes false []) =
      .ok (childNodes false [friendNode]) := rfl
  obtain ⟨hattached, hagain, hcomm, -⟩ := ensurePath_only_adds h
  obtain ⟨a, b, ha, hb, hreordered⟩ := hcomm false ["children", "friend"] _ h₂
  cases ha
  cases hb
  exact ⟨h, hattached, hagain, hreordered⟩

end RelQuery.Include

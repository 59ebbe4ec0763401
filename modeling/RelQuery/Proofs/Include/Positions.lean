import RelQuery.Proofs.Include.Places

/-!
# Nodes by their position

A position is an index among nodes, then an index among the nodes below, and so on. It tells nodes
apart that go by one name. Added paths and pages leave every node where it is, with its name and
its filter, and nodes that are added have no filter. Lowering leaves the nodes where they are, and
lowers the filter of each for the place at which it is written.
-/

namespace RelQuery.Include

/-- The node at a position. -/
def at? : List Nat → List Include → Option Include
  | [], _ => none
  | [i], ns => ns[i]?
  | i :: j :: js, ns => ns[i]?.bind fun n => at? (j :: js) n.includes

variable {s : Schema} {m t base : Model} {assoc : Association} {n n' : Include}
  {ns ns' nodes : List Include} {a? b? c? : Option Include} {i j : Nat} {is js : List Nat}
  {hops path : List String} {table : String} {required : Bool} {place : Place}

theorem at?_cons_cons : at? (i :: j :: js) ns = ns[i]?.bind fun n => at? (j :: js) n.includes := rfl

@[simp] theorem at?_nil : at? is [] = none := by
  rcases is with _ | ⟨i, _ | ⟨j, js⟩⟩ <;> rfl

theorem at?_congr (h : ns'[i]? = ns[i]?) : at? (i :: is) ns' = at? (i :: is) ns := by
  cases is with
  | nil => exact h
  | cons j js => rw [at?_cons_cons, at?_cons_cons, h]

theorem at?_below (h : ns[i]? = some n) : at? (i :: j :: js) ns = at? (j :: js) n.includes := by
  rw [at?_cons_cons, h, Option.bind_some]

theorem at?_of_below (hi : ns[i]? = some n) (h : at? is n.includes = some n') :
    at? (i :: is) ns = some n' := by
  cases is with
  | nil => cases h
  | cons j js => rwa [at?_below hi]

/-! ## Nodes that stay -/

/-- A node is still there with its name and its filter, or a node without a filter is new. -/
inductive Retained : Option Include → Option Include → Prop
  | kept {n n' : Include} : n'.name = n.name → n'.filter = n.filter → Retained (some n) (some n')
  | new {n : Include} : n.filter = none → Retained none (some n)
  | none : Retained none none

namespace Retained

theorem refl (a? : Option Include) : Retained a? a? := by
  cases a? with
  | none => exact .none
  | some n => exact .kept rfl rfl

theorem trans (h : Retained a? b?) (h' : Retained b? c?) : Retained a? c? := by
  cases h with
  | kept hname hfilter =>
    cases h' with
    | kept hname' hfilter' => exact .kept (hname'.trans hname) (hfilter'.trans hfilter)
  | new hfilter =>
    cases h' with
    | kept _ hfilter' => exact .new (hfilter'.trans hfilter)
  | none => exact h'

/-- What is there now has the filter that was there. -/
theorem filter (h : Retained a? (some n)) : n.filter = a?.bind (·.filter) := by
  cases h with
  | kept _ hfilter => exact hfilter
  | new hfilter => exact hfilter

theorem exists_name (h : Retained (some n) b?) : ∃ n', b? = some n' ∧ n'.name = n.name := by
  cases h with
  | kept hname => exact ⟨_, rfl, hname⟩

end Retained

/-- Every node is where it was. -/
def Retains (ns ns' : List Include) : Prop := ∀ is, Retained (at? is ns) (at? is ns')

namespace Retains

theorem refl (ns : List Include) : Retains ns ns := fun _ => .refl _

theorem trans {ns₁ : List Include} (h : Retains ns ns₁) (h' : Retains ns₁ ns') : Retains ns ns' :=
  fun is => (h is).trans (h' is)

theorem cons (hname : n'.name = n.name) (hfilter : n'.filter = n.filter)
    (hbelow : Retains n.includes n'.includes) (h : Retains ns ns') :
    Retains (n :: ns) (n' :: ns')
  | [] => .none
  | [0] => .kept hname hfilter
  | [i + 1] => h [i]
  | 0 :: j :: js => hbelow (j :: js)
  | (i + 1) :: j :: js => h (i :: j :: js)

/-- A new node without a filter, and with no filter below it. -/
theorem new (hfilter : n.filter = none) (hbelow : Retains [] n.includes) : Retains [] [n]
  | [] => .none
  | [0] => .new hfilter
  | [_ + 1] => .none
  | 0 :: j :: js => by
    have h := hbelow (j :: js)
    rw [at?_nil] at h ⊢
    exact h
  | (_ + 1) :: _ :: _ => .none

theorem upsert {p : Include → Bool} {change : Include → Except PlanError Include}
    {fresh : Except PlanError Include} (h : upsert p change fresh ns = .ok ns')
    (hchange : ∀ n n', change n = .ok n' →
      n'.name = n.name ∧ n'.filter = n.filter ∧ Retains n.includes n'.includes)
    (hfresh : ∀ n, fresh = .ok n → Retains [] [n]) : Retains ns ns' := by
  induction ns generalizing ns' with
  | nil =>
    obtain ⟨n, hn, rfl⟩ := upsert_nil_eq_ok.mp h
    exact hfresh n hn
  | cons n ns ih =>
    rcases upsert_cons_eq_ok.mp h with ⟨-, n', hn, rfl⟩ | ⟨-, r, h', rfl⟩
    · obtain ⟨hname, hfilter, hbelow⟩ := hchange n n' hn
      exact .cons hname hfilter hbelow (.refl ns)
    · exact .cons rfl rfl (.refl _) (ih h')

theorem ensurePath (h : ensurePath s required hops m ns = .ok ns') : Retains ns ns' := by
  induction hops generalizing m ns ns' with
  | nil =>
    cases h
    exact .refl ns
  | cons hop hops ih =>
    obtain ⟨assoc, t, -, h⟩ := ensurePath_cons_eq_ok h
    have hext : ∀ n n', extendNode s required hops assoc t n = .ok n' →
        n'.name = n.name ∧ n'.filter = n.filter ∧ Retains n.includes n'.includes := by
      intro n n' hn
      obtain ⟨-, includes, hi, rfl⟩ := extendNode_eq_ok hn
      exact ⟨rfl, rfl, ih hi⟩
    -- A new node is a hop that was extended, and a hop has neither a filter nor nodes below it.
    refine upsert h hext fun n hn => ?_
    obtain ⟨-, hfilter, hbelow⟩ := hext _ n hn
    exact .new hfilter hbelow

theorem splitPageAll_of {pinned : List (List String)}
    (H : ∀ n ∈ ns, ∀ path, Retains n.includes (Plan.splitPage pinned path n).includes) :
    Retains ns (Plan.splitPageAll pinned path ns) := by
  induction ns with
  | nil => exact .refl []
  | cons n ns ih =>
    rw [List.forall_mem_cons] at H
    refine .cons ?_ ?_ (H.1 path) (ih H.2) <;>
      rcases splitPage_eq pinned path n with h | ⟨-, h⟩ <;> rw [h]

theorem splitPage (pinned : List (List String)) (path : List String) (n : Include) :
    Retains n.includes (Plan.splitPage pinned path n).includes := by
  induction n generalizing path with
  | node n ih =>
    rcases splitPage_eq pinned path n with h | ⟨-, h⟩ <;> rw [h]
    · exact .refl _
    · exact splitPageAll_of ih

theorem splitPageAll (pinned : List (List String)) (path : List String) (ns : List Include) :
    Retains ns (Plan.splitPageAll pinned path ns) :=
  splitPageAll_of fun n _ path => splitPage pinned path n

end Retains

/-! ## Lowered nodes -/

/-- The node of a place was lowered for it. -/
structure Place.LoweredFrom (s : Schema) (n : Include) (place : Place) : Prop where
  name : place.node.name = n.name
  filter : Option.Rel (fun f g => f.lower s place.model place.name = .ok g) n.filter
    place.node.filter

theorem rel_lowerAll (h : lowerAll s m table ns = .ok ns') (i : Nat) :
    Option.Rel (fun n n' => lower s m table n = .ok n') ns[i]? ns'[i]? := by
  rw [lowerAll_eq_mapM] at h
  exact rel_getElem?_of_mapM h i

/-- What a lowered node has, by the name that its model has below `table`. -/
theorem lowered_eq_ok (h : lower s m table n = .ok n') : ∃ assoc t,
    s.follow m n'.name = .ok (assoc, t) ∧ n'.name = n.name ∧
    Option.Rel (fun f g => f.lower s t (n'.ownName t table) = .ok g) n.filter n'.filter ∧
    lowerAll s t (n'.ownName t table) n.includes = .ok n'.includes := by
  obtain ⟨assoc, t, filter, includes, hf, hfilter, hincludes, rfl⟩ := lower_eq_ok h
  exact ⟨assoc, t, hf, rfl, hfilter, hincludes⟩

/-- Every node of lowered ones was at the same position before. -/
theorem PlaceAt.exists_at (h : PlaceAt s base nodes m table ns' is place)
    (hl : lowerAll s m table ns = .ok ns') : ∃ n, at? is ns = some n ∧ place.LoweredFrom s n := by
  induction h generalizing ns with
  | here hi hf =>
    obtain ⟨n, hn, hlower⟩ := exists_left_of_rel (rel_lowerAll hl _) hi
    obtain ⟨assoc', t', hf', hname, hfilter, -⟩ := lowered_eq_ok hlower
    cases hf.symm.trans hf'
    exact ⟨n, hn, hname, hfilter⟩
  | joined hi hf hs _ ih =>
    obtain ⟨n, hn, hlower⟩ := exists_left_of_rel (rel_lowerAll hl _) hi
    obtain ⟨assoc', t', hf', -, -, hincludes⟩ := lowered_eq_ok hlower
    cases hf.symm.trans hf'
    rw [ownName_of_joined hs] at hincludes
    obtain ⟨c, hc, hplace⟩ := ih hincludes
    exact ⟨c, at?_of_below hn hc, hplace⟩
  | separate hi hf hs _ ih =>
    obtain ⟨n, hn, hlower⟩ := exists_left_of_rel (rel_lowerAll hl _) hi
    obtain ⟨assoc', t', hf', -, -, hincludes⟩ := lowered_eq_ok hlower
    cases hf.symm.trans hf'
    rw [ownName_of_separate hs] at hincludes
    obtain ⟨c, hc, hplace⟩ := ih hincludes
    exact ⟨c, at?_of_below hn hc, hplace⟩

/-- A node of lowered ones has a place at the position where it was. -/
theorem exists_placeAt (hl : lowerAll s m table ns = .ok ns') (hn : at? is ns = some n) :
    ∃ place, PlaceAt s base nodes m table ns' is place ∧ place.LoweredFrom s n := by
  induction is generalizing base nodes m table ns ns' with
  | nil => cases hn
  | cons i is ih =>
    cases is with
    | nil =>
      obtain ⟨n', hi, hlower⟩ := exists_right_of_rel (rel_lowerAll hl i) hn
      obtain ⟨assoc, t, hf, hname, hfilter, -⟩ := lowered_eq_ok hlower
      exact ⟨_, .here hi hf, hname, hfilter⟩
    | cons j js =>
      obtain ⟨c, hc, hbelow⟩ := Option.bind_eq_some_iff.mp hn
      obtain ⟨n', hi, hlower⟩ := exists_right_of_rel (rel_lowerAll hl i) hc
      obtain ⟨assoc, t, hf, -, -, hincludes⟩ := lowered_eq_ok hlower
      cases hs : n'.separate with
      | false =>
        rw [ownName_of_joined hs] at hincludes
        obtain ⟨place, hplace, hlowered⟩ := ih hincludes hbelow
        exact ⟨place, .joined hi hf hs hplace, hlowered⟩
      | true =>
        rw [ownName_of_separate hs] at hincludes
        obtain ⟨place, hplace, hlowered⟩ := ih hincludes hbelow
        exact ⟨place, .separate hi hf hs hplace, hlowered⟩

end RelQuery.Include

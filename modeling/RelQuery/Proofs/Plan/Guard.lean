import RelQuery.Proofs.Filter.Away
import RelQuery.Proofs.Filter.Conditional
import RelQuery.Proofs.Plan.LookBack

/-!
# Guards of updates and deletions

The filter of an update or a deletion guards the rows that the statement changes. It stays on the
table of the statement exactly if its document compares nothing behind a key that leads away, and it
lets every row through exactly if its document states no condition and reads as true.
-/

namespace RelQuery

namespace Query

open RelQuery.Filter (ComparesAway HasCondition Says)

variable {s : Schema} {m : Model} {model : String} {mutation : Mutation} {args value : Document}
  {f g : Filter}

theorem find?_distant_eq_none : f.paths.find? (!·.hops.isEmpty) = none ↔ f.Local := by
  simp only [List.find?_eq_none, Filter.mem_paths_iff, Filter.Local, Filter.Behind,
    List.isEmpty_iff, Bool.not_eq_true, Bool.not_eq_false']
  constructor
  · intro h path negated hr
    exact h path ⟨negated, hr⟩
  · rintro h path ⟨negated, hr⟩
    exact h path negated hr

/-- A guard is the lowered filter of the `where` clause, if that is local. -/
theorem mutationFilter_eq_ok : mutationFilter s model mutation args = .ok f ↔
    ∃ value m g, args.get? "where" = some value ∧ s.model model = .ok m ∧
      Filter.compile s model value = .ok g ∧ g.Local ∧ g.lower s m m.name = .ok f := by
  unfold mutationFilter
  constructor
  · intro h
    dsimp only at h
    split at h
    · cases h
    · cases h
    · rename_i value _ hwhere
      rw [ok_bind] at h
      obtain ⟨m, hm, h⟩ := bind_eq_ok.mp h
      obtain ⟨g, hg, h⟩ := bind_eq_ok.mp h
      split at h
      · cases h
      · exact ⟨value, m, g, hwhere, hm, hg, find?_distant_eq_none.mp ‹_›, h⟩
  · rintro ⟨value, m, g, hwhere, hm, hg, hlocal, h⟩
    have hnone := find?_distant_eq_none.mpr hlocal
    cases value with
    | null =>
      obtain ⟨_, -, hv, -⟩ := Filter.compile_eq_ok.mp hg
      cases hv
    | _ => simp only [hwhere, ok_bind, hm, hg, hnone, h]

/-- A guard is the empty conjunction, which is true of every row, exactly if its `where` clause
states no condition at any depth and reads as true. -/
theorem mutationFilter_eq_always_iff (h : mutationFilter s model mutation args = .ok f) :
    ∃ value m, args.get? "where" = some value ∧ s.model model = .ok m ∧
      (f = .always ↔ ¬HasCondition s (.root m, value) ∧
        ∀ v : Valuation Kleene, Says v s (.root m) value .true) := by
  obtain ⟨value, m, g, hwhere, hm, hg, -, hlower⟩ := mutationFilter_eq_ok.mp h
  obtain ⟨n, hn, -, hg⟩ := Filter.compile_eq_ok.mp hg
  cases hm.symm.trans hn
  exact ⟨value, m, hwhere, hm,
    (Filter.lower_eq_always_iff hg hlower).trans (Filter.eq_always_iff hg)⟩

/-- The leaves of a lowered local filter are comparisons with attributes of the model itself, and
raw conditions. -/
theorem leaves_of_lower_local {l : Filter} {table : String} (hf : g.Local)
    (h : g.lower s m table = .ok f) (hl : l ∈ f.leaves) :
    (∃ c, l = .comparison c ∧ c.path.hops = []) ∨ ∃ sql, l = .raw sql := by
  obtain ⟨k, hk, hlower⟩ := Filter.mem_leaves_lower h hl
  have hleaf := Filter.isLeaf_of_mem hk
  cases k with
  | comparison c =>
    cases hlower
    exact .inl ⟨c, rfl, hf c.path c.negated ⟨_, hk, rfl⟩⟩
  | computed c =>
    obtain ⟨t, -, hlower⟩ := bind_eq_ok.mp hlower
    cases hlower
    exact .inr ⟨_, rfl⟩
  | raw sql =>
    cases hlower
    exact .inr ⟨sql, rfl⟩
  | _ => exact hleaf.elim

/-- A guard is accepted exactly if its `where` clause compiles and compares nothing behind a key
that leads away from the model. Its comparisons are then with attributes of the model itself. -/
theorem mutationFilter_local (hm : s.model model = .ok m)
    (hwhere : args.get? "where" = some value) :
    ((∃ f, mutationFilter s model mutation args = .ok f) ↔
      (∃ g, Filter.compile s model value = .ok g) ∧ ¬ComparesAway s (.root m, value)) ∧
    ∀ f, mutationFilter s model mutation args = .ok f → ∀ l ∈ f.leaves,
      (∃ c, l = .comparison c ∧ c.path.hops = []) ∨ ∃ sql, l = .raw sql := by
  have hlocal {g} (hg : Filter.compile s model value = .ok g) :
      g.Local ↔ ¬ComparesAway s (.root m, value) := by
    obtain ⟨n, hn, -, hg⟩ := Filter.compile_eq_ok.mp hg
    cases hm.symm.trans hn
    exact Filter.behind_iff hg
  refine ⟨⟨?_, ?_⟩, ?_⟩
  · rintro ⟨f, h⟩
    obtain ⟨value', m', g, hwhere', -, hg, hgl, -⟩ := mutationFilter_eq_ok.mp h
    cases hwhere.symm.trans hwhere'
    exact ⟨⟨g, hg⟩, (hlocal hg).mp hgl⟩
  · rintro ⟨⟨g, hg⟩, haway⟩
    obtain ⟨f, hf⟩ := (Filter.writable_of_compile hm hg).exists_lower m.name
    exact ⟨f, mutationFilter_eq_ok.mpr ⟨value, m, g, hwhere, hm, hg, (hlocal hg).mpr haway, hf⟩⟩
  · intro f h l hl
    obtain ⟨_, _, g, -, -, -, hgl, hlower⟩ := mutationFilter_eq_ok.mp h
    exact leaves_of_lower_local hgl hlower hl

/-! ### Guards of orders -/

/-- The arguments of a mutation with this `where` clause. -/
def argumentsWhere (value : Document) : Document := .obj [("where", value)]

theorem guard_orders (hg : Filter.compile shopSchema "Order" value = .ok g)
    (hlocal : g.paths.find? (!·.hops.isEmpty) = none)
    (hlower : g.lower shopSchema orderModel "Order" = .ok f) :
    mutationFilter shopSchema "Order" mutation (argumentsWhere value) = .ok f :=
  mutationFilter_eq_ok.mpr
    ⟨value, orderModel, g, rfl, rfl, hg, find?_distant_eq_none.mp hlocal, hlower⟩

def paid : Document := .obj [("status", .str "paid")]

def statusIsPaid : Filter :=
  .comparison ⟨⟨[], "status", []⟩, .eq, .plain (.str "paid"), some .string, false⟩

theorem compile_paid : Filter.compile shopSchema "Order" paid = .ok statusIsPaid := by
  simp only [paid, Filter.compile, Filter.compileValue, Filter.compileFields]
  rfl

theorem guard_paid :
    mutationFilter shopSchema "Order" .update (argumentsWhere paid) = .ok statusIsPaid :=
  guard_orders compile_paid rfl rfl

theorem guard_paid_conditional :
    mutationFilter shopSchema "Order" .update (argumentsWhere paid) = .ok statusIsPaid ∧
    ∃ value m, (argumentsWhere paid).get? "where" = some value ∧
      shopSchema.model "Order" = .ok m ∧
      (statusIsPaid = .always ↔ ¬HasCondition shopSchema (.root m, value) ∧
        ∀ v : Valuation Kleene, Says v shopSchema (.root m) value .true) :=
  ⟨guard_paid, mutationFilter_eq_always_iff guard_paid⟩

theorem guard_paid_local : shopSchema.model "Order" = .ok orderModel ∧
    (argumentsWhere paid).get? "where" = some paid ∧
    ((∃ f, mutationFilter shopSchema "Order" .update (argumentsWhere paid) = .ok f) ↔
      (∃ g, Filter.compile shopSchema "Order" paid = .ok g) ∧
        ¬ComparesAway shopSchema (.root orderModel, paid)) ∧
    ∀ f, mutationFilter shopSchema "Order" .update (argumentsWhere paid) = .ok f →
      ∀ l ∈ f.leaves, (∃ c, l = .comparison c ∧ c.path.hops = []) ∨ ∃ sql, l = .raw sql :=
  ⟨rfl, rfl, mutationFilter_local rfl rfl⟩

/-- Clauses that state nothing of an order let every order through. -/
theorem guard_vacuous : Schema.build shop = .ok shopSchema ∧
    mutationFilter shopSchema "Order" .update (argumentsWhere (.obj [])) = .ok .always ∧
    mutationFilter shopSchema "Order" .delete (argumentsWhere (.obj [("status", .obj [])])) =
      .ok .always := by
  refine ⟨build_shop, guard_orders (g := .always) ?_ rfl rfl,
    guard_orders (g := .always) ?_ rfl rfl⟩
  · simp only [Filter.compile, Filter.compileValue, Filter.compileFields]
    rfl
  · simp only [Filter.compile, Filter.compileValue, Filter.compileFields]
    rfl

/-- An expression about the customer of an order. -/
def ofCustomer : Document :=
  .obj [("customer", .obj [("_Exp", .obj [("literal", .arr [.str "country"])])])]

/-- A key that leads away leaves nothing behind if its clause holds no comparison. -/
theorem guard_away : Schema.build shop = .ok shopSchema ∧
    Filter.LeadsAway shopSchema (.root orderModel) "customer__country" ∧
    mutationFilter shopSchema "Order" .update
      (argumentsWhere (.obj [("customer__country", .obj [])])) = .ok .always ∧
    Filter.LeadsAway shopSchema (.root orderModel) "customer" ∧
    mutationFilter shopSchema "Order" .update (argumentsWhere ofCustomer) =
      .ok (.raw "country") := by
  have hpath : Path.Key.parse? "customer__country" = some ⟨["customer", "country"], false⟩ := rfl
  refine ⟨build_shop, .path ⟨rfl, by decide, by decide, rfl⟩ hpath rfl nofun,
    guard_orders (g := .always) ?_ rfl rfl, .association ⟨rfl, by decide, by decide, rfl⟩ rfl,
    guard_orders (g := .raw "country") ?_ rfl rfl⟩
  · simp only [Filter.compile, Filter.compileValue, Filter.compileFields]
    rfl
  · simp only [ofCustomer, Filter.compile, Filter.compileValue, Filter.compileFields]
    rfl

end Query

end RelQuery

import RelQuery.Proofs.Filter.Lowered
import RelQuery.Proofs.Plan.Counted
import RelQuery.Proofs.Plan.Merging

/-!
# Inner joins of merges

Every list makes inner joins of the nodes on the way of its negated comparisons. A merge keeps an
inner join of one side only if the other has none but inner joins there, or if its filter still
tells: comparisons with stored attributes do, those with computed ones have been lowered to text.
-/

namespace RelQuery

namespace Filter

/-- A comparison with a stored attribute reaches the end of a path. -/
def ReachesStored (f : Filter) (r : AttributePath × Bool) : Prop :=
  ∃ c, .comparison c ∈ f.leaves ∧ (c.path, c.negated) = r

variable {s : Schema} {m : Model} {table : String} {f g : Filter} {r : AttributePath × Bool}
  {path : List String}

theorem inherited_reachesStored (r : AttributePath × Bool) : Inherited (ReachesStored · r) where
  logical {k fs} := by
    simp only [ReachesStored, mem_leaves_logical]
    constructor
    · rintro ⟨c, ⟨f, hf, hc⟩, hr⟩
      exact ⟨f, hf, c, hc, hr⟩
    · rintro ⟨f, hf, c, hc, hr⟩
      exact ⟨c, ⟨f, hf, hc⟩, hr⟩
  not := id
  comparison_congr {a b} h := by
    change (a.path == b.path && a.operator == b.operator && a.operand == b.operand &&
      a.type == b.type && a.negated == b.negated) = true at h
    simp only [Bool.and_eq_true, beq_iff_eq] at h
    simp [ReachesStored, leaves, h.1.1.1.1, h.2]
  not_congr := id

/-- What a lowered filter reaches, the comparisons with stored attributes reached before. -/
theorem reaches_lower (h : f.lower s m table = .ok g) : g.Reaches r ↔ f.ReachesStored r := by
  induction f generalizing g with
  | comparison c =>
    cases h
    simp [Reaches, ReachesStored, leaves, reach?]
  | computed c =>
    obtain ⟨text, rfl, -⟩ := lower_computed_eq_ok h
    simp [Reaches, ReachesStored, leaves, reach?]
  | raw sql =>
    cases h
    simp [Reaches, ReachesStored, leaves, reach?]
  | logical k fs ih =>
    obtain ⟨gs, hgs, h⟩ := bind_eq_ok.mp h
    cases h
    rw [lowerAll_eq_mapM] at hgs
    rw [reaches_combine, (inherited_reachesStored r).logical]
    constructor
    · rintro ⟨g, hg, hr⟩
      obtain ⟨f, hf, hg⟩ := mem_of_mapM hgs hg
      exact ⟨f, hf, (ih f hf hg).mp hr⟩
    · rintro ⟨f, hf, hr⟩
      obtain ⟨g, hg, hfg⟩ := of_mem_mapM hgs hf
      exact ⟨g, hg, (ih f hf hfg).mpr hr⟩
  | not f ih =>
    obtain ⟨g, hg, h⟩ := bind_eq_ok.mp h
    cases h
    have hoperand : g.Reaches r ↔ f.ReachesStored r := ih hg
    exact hoperand

end Filter

namespace Include

/-- The node at a path is an outer join. -/
def OuterAt (ns : List Include) (path : List String) : Prop :=
  ∃ n, bareAt? path ns = some n ∧ n.required = false

variable {s : Schema} {Q : Model → Filter → Prop} {m : Model} {ns as bs : List Include}
  {hops path : List String}

/-- The nodes along a path of inner joins are inner joins. -/
theorem innerAt_of_joined (hj : Joined s true m ns hops) (hns : Forest s Q m ns) (hne : path ≠ [])
    (hpath : path <+: hops) : InnerAt ns path := by
  induction hj generalizing path with
  | nil => exact (hne (List.prefix_nil.mp hpath)).elim
  | @cons m t ns hop hops assoc n hf hfind _ hr _ ih =>
    rw [find?_hopNode hns hf] at hfind
    cases path with
    | nil => exact (hne rfl).elim
    | cons name rest =>
      obtain ⟨rfl, hrest⟩ := List.cons_prefix_cons.mp hpath
      cases rest with
      | nil => exact innerAt_singleton.mpr ⟨n, hfind, hr rfl⟩
      | cons next rest =>
        have hbelow := hns.under hf
        rw [under_of_child? hfind] at hbelow
        rw [innerAt_under, under_of_child? hfind]
        exact ih hbelow (List.cons_ne_nil _ _) hrest

/-- A merged node where one side has an inner join. It is one if it is marked, or if no side has an
outer join there. -/
theorem innerAt_merge {marked : Bool} (h : bareAt? path ns =
      (Option.merge mergeBare (bareAt? path as) (bareAt? path bs)).map (mark marked))
    (hinner : InnerAt as path ∨ InnerAt bs path) :
    InnerAt ns path ↔ marked = true ∨ ¬OuterAt as path ∧ ¬OuterAt bs path := by
  unfold InnerAt OuterAt at *
  rw [h]
  generalize bareAt? path as = a?, bareAt? path bs = b? at hinner
  cases a? with
  | none =>
    cases b? with
    | none => simp at hinner
    | some b => simp [mark, or_comm]
  | some a =>
    cases b? with
    | none => simp [mark, or_comm]
    | some b => simp [mark, mergeBare, or_comm]

end Include

open Include (InnerAt OuterAt bareAt?)

variable {s : Schema} {m : Model} {a b p : Plan} {selection : PartialPlan} {args : Arguments}
  {path : List String} {model : String} {field field' : Field} {info info' : ExecutionInfo}

/-! ## Inner joins of lists -/

namespace Query

/-- A negated comparison with a stored attribute, in the filter of a query, runs through the end of
a path. -/
def NegatesStored (s : Schema) (m : Model) (args : Arguments) (path : List String) : Prop :=
  ∃ value f negated, args.filter = some value ∧ Filter.compile s m.name value = .ok f ∧
    f.ReachesStored (negated, true) ∧ path <+: negated.hops

theorem not_reachesStored_lacks {assoc : Association} {target : Model} {negated : AttributePath} :
    ¬(lacks assoc target).ReachesStored (negated, true) := by
  rintro ⟨c, hc, hr⟩
  cases List.mem_singleton.mp hc
  cases hr

/-- The filter of a plan negates what the stored comparisons of its query do. -/
theorem Finishes.negatedPaths {asm : Assembly} (hasm : assemble s m selection args = .ok asm)
    (h : Finishes s m args asm p) (hne : path ≠ []) :
    (∃ hops ∈ Filter.negatedPaths p.filter, path <+: hops) ↔ NegatesStored s m args path := by
  obtain ⟨lowered, hlowered, hfilter⟩ := h.filter
  have hreaches : ∀ r, Filter.OptionReaches p.filter r ↔
      ∃ f, asm.filter = some f ∧ f.ReachesStored r := by
    intro r
    rw [hfilter]
    unfold lowerFilter at hlowered
    split at hlowered
    · rename_i f hf
      obtain ⟨g, hg, rfl⟩ := map_eq_ok.mp hlowered
      have hproper : Filter.OptionReaches g.proper? r ↔ g.Reaches r :=
        ⟨fun ⟨g', hg', hr⟩ => Filter.proper?_eq_some hg' ▸ hr, Filter.optionReaches_proper?⟩
      simp [hf, hproper, Filter.reaches_lower hg]
    · rename_i hnone
      cases hlowered
      simp [hnone, Filter.OptionReaches]
  have hstored : ∀ negated, (∃ f, asm.filter = some f ∧ f.ReachesStored (negated, true)) ↔ _ :=
    fun negated => exists_filter_iff (Filter.inherited_reachesStored _) hasm
      fun _ _ => not_reachesStored_lacks
  constructor
  · rintro ⟨hops, hhops, hpath⟩
    obtain ⟨-, negated, rfl, hr⟩ := Filter.mem_negatedPaths.mp hhops
    obtain ⟨value, f, hvalue, hf, hr⟩ := (hstored negated).mp ((hreaches _).mp hr)
    exact ⟨value, f, negated, hvalue, hf, hr, hpath⟩
  · rintro ⟨value, f, negated, hvalue, hf, hr, hpath⟩
    have hhops : negated.hops ≠ [] := fun hnil => hne (List.prefix_nil.mp (hnil ▸ hpath))
    have hr := (hreaches _).mpr ((hstored negated).mpr ⟨value, f, hvalue, hf, hr⟩)
    exact ⟨negated.hops, Filter.mem_negatedPaths.mpr ⟨hhops, negated, rfl, hr⟩, hpath⟩

/-- A list makes inner joins of the nodes that its negated comparisons run through. -/
theorem innerAt_of_negates {asm : Assembly} (hasm : Assembled s m selection args asm)
    (h : Finishes s m args asm p) (hne : path ≠ []) (hnegates : Negates s m args path) :
    InnerAt p.includes path := by
  obtain ⟨negated, ⟨f, hf, l, hl, hr⟩, hpath⟩ := (reaches_negated hasm.eq).mpr hnegates
  obtain ⟨_, _, _, nodes, -, -, -, hnodes, horder⟩ := assemble_eq_ok hasm.eq
  rw [hf] at hnodes
  have hjoined := (Plan.joined_attachOrders horder).2 (Include.joined_attachFilter hnodes hl hr)
  obtain ⟨n, hn, hrequired⟩ := Include.innerAt_of_joined hjoined hasm.forest hne hpath
  obtain ⟨n', hn', filter, separate, rfl, -, -⟩ := h.exists_finished hn
  exact ⟨_, hn', hrequired⟩

/-- A plan and the negated comparisons of its query: the nodes that they run through are inner joins,
and its filter tells of those with stored attributes. -/
structure Negating (s : Schema) (m : Model) (args : Arguments) (p : Plan) : Prop where
  regular : p.Regular s (fun _ _ => True) m
  inner : ∀ path, path ≠ [] → Negates s m args path → InnerAt p.includes path
  told : ∀ path, path ≠ [] →
    ((∃ hops ∈ Filter.negatedPaths p.filter, path <+: hops) ↔ NegatesStored s m args path)

theorem negating_of_rootList (hm : s.model model = .ok m) (hargs : argumentsOf field info = .ok args)
    (h : rootList s model field info = .ok p) : Negating s m args p := by
  obtain ⟨selection, hsel, -⟩ := bind_eq_ok.mp h
  obtain ⟨asm, hasm, hfin⟩ := exists_assembled hm hsel hargs h
  exact ⟨regular_rootList (Include.filterClosed_true s) hm h,
    fun path hne => innerAt_of_negates hasm hfin hne, fun path hne => hfin.negatedPaths hasm.eq hne⟩

theorem Negating.merge {args' : Arguments} (ha : Negating s m args a) (hb : Negating s m args' b)
    (h : Plan.merge a b = .ok p) (hne : path ≠ [])
    (hnegates : Negates s m args path ∨ Negates s m args' path) :
    InnerAt p.includes path ↔ NegatesStored s m args path ∨ NegatesStored s m args' path ∨
      ¬OuterAt a.includes path ∧ ¬OuterAt b.includes path := by
  obtain ⟨includes, hp⟩ := Plan.mergeOf_of_merge h
  rw [Include.innerAt_merge (hp.bareAt?_includes ha.regular hb.regular)
    (hnegates.imp (ha.inner path hne) (hb.inner path hne)), ← or_assoc, ← ha.told path hne,
    ← hb.told path hne]
  refine or_congr_left ?_
  rw [List.any_eq_true, hp.filter]
  simp only [Filter.mem_negatedPaths_merge?, List.isPrefixOf_iff_prefix, or_and_right, exists_or]

/-- The nodes that negated comparisons of two lists run through are inner joins of their merge
exactly if a comparison with a stored attribute is among them, or neither list has an outer join
there. -/
theorem innerAt_merge_of_rootList (ha : rootList s model field info = .ok a)
    (hb : rootList s model field' info' = .ok b) (h : Plan.merge a b = .ok p) :
    ∃ m args args', s.model model = .ok m ∧ argumentsOf field info = .ok args ∧
      argumentsOf field' info' = .ok args' ∧ ∀ path, path ≠ [] →
        (Negates s m args path ∨ Negates s m args' path) →
          (InnerAt p.includes path ↔ NegatesStored s m args path ∨ NegatesStored s m args' path ∨
            ¬OuterAt a.includes path ∧ ¬OuterAt b.includes path) := by
  obtain ⟨selection, hsel, hrest⟩ := bind_eq_ok.mp ha
  obtain ⟨selection', -, hrest'⟩ := bind_eq_ok.mp hb
  obtain ⟨m, hm, -⟩ := bind_eq_ok.mp hsel
  obtain ⟨args, hargs, -⟩ := bind_eq_ok.mp hrest
  obtain ⟨args', hargs', -⟩ := bind_eq_ok.mp hrest'
  exact ⟨m, args, args', hm, hargs, hargs', fun path hne =>
    (negating_of_rootList hm hargs ha).merge (negating_of_rootList hm hargs' hb) h hne⟩

/-! ### Accounts by what their owner is not called -/

def accounts : Config where
  models := [
    { name := "Account"
      attributes := [{ name := "id", type := "INTEGER", primaryKey := true },
        { name := "ownerId", type := "INTEGER" }]
      associations := [{
        kind := .belongsTo
        target := "Owner"
        declaredName := some "owner"
        foreignKey := "ownerId" }] },
    { name := "Owner"
      attributes := [{ name := "id", type := "INTEGER", primaryKey := true },
        { name := "name", type := "STRING" },
        { name := "label", type := "STRING", computed := some ⟨"upper(name)", []⟩ }] }]

def accountsSchema : Schema := ⟨accounts.models.map (·.resolve), accounts.options⟩

theorem build_accounts : Schema.build accounts = .ok accountsSchema := by decide

def account : Model :=
  ⟨"Account", "accounts", [⟨"id", "id", .integer, false, true, none⟩,
    ⟨"ownerId", "ownerId", .integer, true, false, none⟩],
    [⟨"owner", .belongsTo, "Account", "Owner", "ownerId", none, none⟩]⟩

def accountsWhere (key : String) : Field where
  name := "accounts"
  arguments := [("query", .object [("where", .object [(key, .scalar (.str "ADA"))])])]
  selections := [.field "id" none [] []]

def whereArguments (key : String) : Arguments where
  filter := some (.obj [(key, .str "ADA")])

def accountsWithOwner : Field where
  name := "accounts"
  selections := [.field "owner" none [] [.field "name" none [] []]]

def ownerNode (attributes : List String) (required : Bool) : Include where
  target := "Owner"
  name := "owner"
  kind := .belongsTo
  attributes := attributes
  required := required

def accountsPlan (filter : Filter) : Plan where
  model := "Account"
  attributes := [.column "id"]
  includes := [ownerNode [] true]
  filter := some filter

def ownersPlan : Plan where
  model := "Account"
  attributes := [.column "ownerId", .column "id"]
  includes := [ownerNode ["name"] false]

theorem rootList_accountsWithOwner :
    rootList accountsSchema "Account" accountsWithOwner {} = .ok ownersPlan := by
  rfl

def notNamed : Filter :=
  .comparison ⟨⟨["owner"], "name", []⟩, .eq, .plain (.str "ADA"), some .string, true⟩

theorem compile_notNamed :
    Filter.compile accountsSchema "Account" (.obj [("owner!!name", .str "ADA")]) =
      .ok notNamed := by
  simp only [Filter.compile, Filter.compileValue, Filter.compileFields]
  rfl

def notLabelled : Filter :=
  .computed ⟨⟨["owner"], "label", []⟩, "upper(name)", .eq, "'ADA'", true⟩

theorem compile_notLabelled :
    Filter.compile accountsSchema "Account" (.obj [("owner!!label", .str "ADA")]) =
      .ok notLabelled := by
  simp only [Filter.compile, Filter.compileValue, Filter.compileFields]
  rfl

theorem rootList_accountsWhere {key : String} {f : Filter}
    (h : Filter.compile accountsSchema "Account" (.obj [(key, .str "ADA")]) = .ok f) :
    rootList accountsSchema "Account" (accountsWhere key) {} =
      Plan.compose accountsSchema ⟨"Account", ["id"], ["id"], []⟩ (Filter.all [f]).proper?
        (whereArguments key) := by
  have hselection : Include.plan accountsSchema {} "Account" (accountsWhere key).selections none
      [] = .ok ⟨"Account", ["id"], ["id"], []⟩ := rfl
  have hargs : argumentsOf (accountsWhere key) {} = .ok (whereArguments key) := rfl
  have hname : account.name = "Account" := rfl
  have hasked : asked accountsSchema account (whereArguments key) = .ok [f] := by
    simp only [asked, whereArguments, hname, h]
    rfl
  have hmodel : accountsSchema.model "Account" = .ok account := rfl
  rw [rootList, hselection, ok_bind, hargs, ok_bind, applyArguments_eq, hmodel, ok_bind, hasked]
  rfl

theorem rootList_notNamed : rootList accountsSchema "Account" (accountsWhere "owner!!name") {} =
    .ok (accountsPlan notNamed) :=
  rootList_accountsWhere compile_notNamed

/-- The comparison with a label as it is written. -/
def labelText : Filter := .raw "NOT ((upper(\"Account->owner\".\"name\")) = 'ADA')"

theorem rootList_notLabelled :
    rootList accountsSchema "Account" (accountsWhere "owner!!label") {} =
      .ok (accountsPlan labelText) :=
  rootList_accountsWhere compile_notLabelled

theorem notNamed_inner : ∃ p, Plan.merge (accountsPlan notNamed) ownersPlan = .ok p ∧
    InnerAt p.includes ["owner"] := by
  obtain ⟨m, args, args', hm, hargs, -, h⟩ :=
    innerAt_merge_of_rootList rootList_notNamed rootList_accountsWithOwner rfl
  cases hm
  cases hargs
  have hstored : NegatesStored accountsSchema account (whereArguments "owner!!name") ["owner"] :=
    ⟨_, notNamed, ⟨["owner"], "name", []⟩, rfl, compile_notNamed,
      ⟨_, List.mem_singleton_self _, rfl⟩, List.prefix_rfl⟩
  have hnegates : Negates accountsSchema account (whereArguments "owner!!name") ["owner"] :=
    ⟨_, notNamed, ⟨["owner"], "name", []⟩, rfl, compile_notNamed,
      ⟨_, List.mem_singleton_self _, rfl⟩, List.prefix_rfl⟩
  exact ⟨_, rfl, (h ["owner"] (List.cons_ne_nil _ _) (.inl hnegates)).mpr (.inl hstored)⟩

/-- Accounts without an owner are in the merge, of which one side leaves them out. -/
theorem notLabelled_not_inner : Schema.build accounts = .ok accountsSchema ∧ ∃ a b p q,
    rootList accountsSchema "Account" (accountsWhere "owner!!label") {} = .ok a ∧
    rootList accountsSchema "Account" accountsWithOwner {} = .ok b ∧
    Negates accountsSchema account (whereArguments "owner!!label") ["owner"] ∧
    InnerAt a.includes ["owner"] ∧ Plan.merge a b = .ok p ∧ Plan.merge b a = .ok q ∧
    ¬InnerAt p.includes ["owner"] ∧ ¬InnerAt q.includes ["owner"] := by
  refine ⟨build_accounts, _, _, _, _, rootList_notLabelled, rootList_accountsWithOwner,
    ⟨_, notLabelled, ⟨["owner"], "label", []⟩, rfl, compile_notLabelled,
      ⟨_, List.mem_singleton_self _, rfl⟩, List.prefix_rfl⟩, ⟨_, rfl, rfl⟩, rfl, rfl, ?_, ?_⟩
  all_goals
    rintro ⟨n, hn, hrequired⟩
    cases hn
    cases hrequired

end Query

end RelQuery

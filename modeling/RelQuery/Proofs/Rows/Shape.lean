import RelQuery.Proofs.Include.Forest
import RelQuery.Proofs.Rows.Batches

/-!
# The shape of results

Every object of a result has a value for each of its nodes: an array of objects for many, an object
or `null` for one. Merging sets those of joined nodes, and loading adds those of separate ones.
-/

namespace RelQuery.Rows

/-- A value of an association whose rows have a property: an array of them for many, one of them or
`null` for one. -/
inductive HoldsRows (P : Document → Prop) : Bool → Document → Prop
  | many {items : List Document} : (∀ d ∈ items, P d) → HoldsRows P true (.arr items)
  | none : HoldsRows P false .null
  | one {row : Document} : P row → HoldsRows P false row

mutual

/-- Whether an object has a value of the right kind under the name of a node. Separate nodes have one
if they are `loaded`, joined ones unless they serve a path only. -/
def Shaped (loaded : Bool) : Include → Document → Prop
  | ⟨_, name, kind, attributes, _, includes, _, _, _, separate⟩, row =>
    (if separate then loaded else !(attributes.isEmpty && allPathOnly includes)) = true →
      ∃ value, row.get? name = some value ∧
        HoldsRows (fun d => (∃ fields, d = .obj fields) ∧ ShapedAll loaded includes d)
          kind.isMany value

def ShapedAll (loaded : Bool) : List Include → Document → Prop
  | [], _ => True
  | n :: ns, row => Shaped loaded n row ∧ ShapedAll loaded ns row

end

/-- An object with the shape of some nodes. -/
def IsShaped (loaded : Bool) (nodes : List Include) (row : Document) : Prop :=
  (∃ fields, row = .obj fields) ∧ ShapedAll loaded nodes row

/-- Whether a node has a value in every object. -/
def hasValue (loaded : Bool) (n : Include) : Bool :=
  if n.separate then loaded else !isPathOnly n

variable {s : Schema} {Q : Model → Filter → Prop} {m t : Model} {n : Include}
  {nodes ns : List Include} {loaded : Bool} {row row' : Document} {rows : List Row}
  {docs : List Document} {object : Document} {b : Batches} {bs : List Batches} {k : String}

theorem shapedAll_iff : ShapedAll loaded ns row ↔ ∀ n ∈ ns, Shaped loaded n row := by
  induction ns with
  | nil => exact iff_of_true (by rw [ShapedAll]; trivial) (List.forall_mem_nil _)
  | cons n ns ih => rw [ShapedAll, ih, List.forall_mem_cons]

theorem shaped_iff : Shaped loaded n row ↔ (hasValue loaded n = true →
    ∃ value, row.get? n.name = some value ∧
      HoldsRows (IsShaped loaded n.includes) n.kind.isMany value) := by
  rw [hasValue, isPathOnly_eq]
  cases n
  rw [Shaped]
  rfl

theorem HoldsRows.imp {P P' : Document → Prop} {many : Bool} {value : Document}
    (h : HoldsRows P many value) (H : ∀ d, P d → P' d) : HoldsRows P' many value := by
  cases h with
  | many h => exact .many fun d hd => H d (h d hd)
  | none => exact .none
  | one h => exact .one (H _ h)

/-- The shape depends on the value under the name only. -/
theorem Shaped.congr (h : Shaped loaded n row) (hget : row'.get? n.name = row.get? n.name) :
    Shaped loaded n row' := by
  rw [shaped_iff, hget, ← shaped_iff]
  exact h

/-- The value of an association has the shape of its node if its rows have. -/
theorem shaped_of_gathered (hdocs : ∀ d ∈ docs, IsShaped loaded n.includes d)
    (h : row.get? n.name = some (gathered n.kind docs)) : Shaped loaded n row := by
  rw [shaped_iff]
  refine fun _ => ⟨_, h, ?_⟩
  cases n.kind with
  | hasMany | belongsToMany => exact .many hdocs
  | belongsTo | hasOne =>
    cases docs with
    | nil => exact .none
    | cons d docs => exact .one (hdocs d List.mem_cons_self)

/-! ## Merged rows -/

/-- Before loading, the nodes that are shown have a value. -/
theorem hasValue_false : hasValue false n = isShown n := by
  rw [hasValue, isShown]
  cases n.separate <;> rfl

theorem shaped_mergedObject_of (hnames : (nodes.map (·.name)).Nodup)
    (H : ∀ n ∈ nodes, ∀ t, s.model n.target = .ok t → ∀ rows docs,
      mergeRows s t n.includes rows = .ok docs → ∀ d ∈ docs, IsShaped false n.includes d)
    (h : mergedObject s nodes rows = .ok object) : IsShaped false nodes object := by
  obtain ⟨fields, hfields, rfl⟩ := mergedObject_eq_ok.mp h
  refine ⟨⟨_, rfl⟩, shapedAll_iff.mpr fun n hn => ?_⟩
  by_cases hshown : isShown n = true
  · obtain ⟨f, hf, hfield⟩ := of_mem_mapM hfields (List.mem_filter.mpr ⟨hn, hshown⟩)
    obtain ⟨t, docs, ht, hdocs, rfl⟩ := shownField_eq_ok.mp hfield
    have hnodup : (fields.map (·.1)).Nodup := by
      rw [names_of_shownFields hfields]
      exact (List.filter_sublist.map _).nodup hnames
    refine shaped_of_gathered (H n hn t ht _ docs hdocs) ?_
    rw [Document.get?, lookup_setAll hnodup, lookup_of_mem hnodup hf]
    rfl
  · rw [shaped_iff, hasValue_false]
    exact fun hvalue => absurd hvalue hshown

theorem shaped_mergeRows_of (hnames : (nodes.map (·.name)).Nodup)
    (H : ∀ n ∈ nodes, ∀ t, s.model n.target = .ok t → ∀ rows docs,
      mergeRows s t n.includes rows = .ok docs → ∀ d ∈ docs, IsShaped false n.includes d)
    (h : mergeRows s m nodes rows = .ok docs) : ∀ d ∈ docs, IsShaped false nodes d := by
  intro d hd
  rw [mergeRows_eq hnames] at h
  obtain ⟨i, -, hobject⟩ := mem_of_mapM h hd
  exact shaped_mergedObject_of hnames H hobject

theorem shaped_below (hn : n.Rooted s Q m) (h : mergeRows s t n.includes rows = .ok docs) :
    ∀ d ∈ docs, IsShaped false n.includes d := by
  induction hn generalizing t rows docs with
  | node _ _ _ _ hnames _ ih =>
    exact shaped_mergeRows_of hnames (fun c hc _ _ _ _ h => ih c hc h) h

/-- Assembled rows have the shape of the joined nodes. -/
theorem shaped_assemble (hnodes : Include.Forest s Q m nodes)
    (h : assemble s t nodes rows = .ok docs) : ∀ d ∈ docs, IsShaped false nodes d :=
  shaped_mergeRows_of hnodes.names (fun n hn _ _ _ _ h => shaped_below (hnodes.rooted n hn) h) h

/-! ## Loaded rows -/

theorem isSeparated_eq : isSeparated n = (n.separate || anySeparated n.includes) := by
  cases n
  rw [isSeparated]

theorem anySeparated_eq_false_iff :
    anySeparated ns = false ↔ ∀ n ∈ ns, isSeparated n = false := by
  induction ns with
  | nil => exact iff_of_true (by rw [anySeparated]) (List.forall_mem_nil _)
  | cons n ns ih => rw [anySeparated, Bool.or_eq_false_iff, ih, List.forall_mem_cons]

theorem hasValue_of_joined (h : n.separate = false) : hasValue loaded n = !isPathOnly n := by
  rw [hasValue, h]
  rfl

/-- Without separate nodes nothing is left to be loaded. -/
theorem Shaped.complete (hn : isSeparated n = false) (h : Shaped false n row) :
    Shaped true n row := by
  induction n generalizing row with
  | node n ih =>
    rw [isSeparated_eq, Bool.or_eq_false_iff, anySeparated_eq_false_iff] at hn
    rw [shaped_iff, hasValue_of_joined hn.1] at h ⊢
    intro hvalue
    obtain ⟨value, hget, hrows⟩ := h hvalue
    refine ⟨value, hget, hrows.imp fun d ⟨hobj, hshaped⟩ => ⟨hobj, ?_⟩⟩
    rw [shapedAll_iff] at hshaped ⊢
    exact fun c hc => ih c hc (hn.2 c hc) (hshaped c hc)

/-- Filling a row sets the field of the node, or nothing. -/
theorem fillRow_cases (h : fillRow s m n b row = .ok row') :
    row' = row ∨ ∃ value, row' = setField n.name value row := by
  rw [fillRow_eq] at h
  obtain ⟨t, -, h⟩ := bind_eq_ok.mp h
  split at h
  · obtain ⟨assoc, -, h⟩ := bind_eq_ok.mp h
    obtain ⟨owned, -, h⟩ := bind_eq_ok.mp h
    obtain ⟨own, -, h⟩ := bind_eq_ok.mp h
    obtain ⟨children, -, h⟩ := bind_eq_ok.mp h
    cases h
    exact .inr ⟨_, rfl⟩
  · split at h
    · rw [fillUnder] at h
      split at h
      · cases h
        exact .inl rfl
      · obtain ⟨items, -, h⟩ := bind_eq_ok.mp h
        cases h
        exact .inr ⟨_, rfl⟩
      · obtain ⟨value, -, h⟩ := bind_eq_ok.mp h
        cases h
        exact .inr ⟨_, rfl⟩
      · cases h
        exact .inr ⟨_, rfl⟩
    · cases h
      exact .inl rfl

theorem get?_fillRow {fields : Fields} (h : fillRow s m n b (.obj fields) = .ok row') :
    (∃ fields', row' = .obj fields') ∧
      ∀ k, k ≠ n.name → row'.get? k = (Document.obj fields).get? k := by
  rcases fillRow_cases h with rfl | ⟨value, rfl⟩
  · exact ⟨⟨fields, rfl⟩, fun _ _ => rfl⟩
  · exact ⟨⟨_, rfl⟩, fun k hk => by rw [get?_setField, if_neg hk]⟩

/-- Filling what a row has under a name keeps its kind. -/
theorem shaped_fillUnder {fields : Fields} {F : Document → Except PlanError Document}
    (hn : n.separate = false)
    (H : ∀ {d d'}, IsShaped false n.includes d → F d = .ok d' → IsShaped true n.includes d')
    (hrow : Shaped false n (.obj fields)) (h : fillUnder n.name F (.obj fields) = .ok row') :
    Shaped true n row' := by
  rw [shaped_iff, hasValue_of_joined hn] at hrow ⊢
  intro hvalue
  obtain ⟨value, hget, hrows⟩ := hrow hvalue
  rw [fillUnder, hget] at h
  cases hkind : n.kind.isMany with
  | true =>
    rw [hkind] at hrows
    cases hrows with
    | many hshaped =>
      obtain ⟨items', hfilled, h⟩ := bind_eq_ok.mp h
      cases h
      refine ⟨.arr items', by rw [get?_setField, if_pos rfl], .many fun d' hd' => ?_⟩
      obtain ⟨d, hd, hfill⟩ := mem_of_mapM hfilled hd'
      exact H (hshaped d hd) hfill
  | false =>
    rw [hkind] at hrows
    cases hrows with
    | none =>
      cases h
      exact ⟨.null, by rw [get?_setField, if_pos rfl], .none⟩
    | one hshaped =>
      obtain ⟨⟨inner, rfl⟩, -⟩ := id hshaped
      obtain ⟨filled, hfill, h⟩ := bind_eq_ok.mp h
      cases h
      exact ⟨filled, by rw [get?_setField, if_pos rfl], .one (H hshaped hfill)⟩

/-- Nodes with distinct names are filled one after the other, each without touching the others. -/
theorem shaped_fillRowAll_of (hnames : (ns.map (·.name)).Nodup)
    (H : ∀ n ∈ ns, ∀ {b fields row'}, Shaped false n (.obj fields) →
      fillRow s m n b (.obj fields) = .ok row' → Shaped true n row')
    {fields : Fields} (hrow : ShapedAll false ns (.obj fields))
    (h : fillRowAll s m ns bs (.obj fields) = .ok row') :
    IsShaped true ns row' ∧
      ∀ k, k ∉ ns.map (·.name) → row'.get? k = (Document.obj fields).get? k := by
  induction ns generalizing fields bs with
  | nil =>
    cases h
    exact ⟨⟨⟨fields, rfl⟩, by rw [ShapedAll]; trivial⟩, fun _ _ => rfl⟩
  | cons n ns ih =>
    rw [List.map_cons, List.nodup_cons] at hnames
    rw [List.forall_mem_cons] at H
    rw [fillRowAll] at h
    rw [ShapedAll] at hrow
    obtain ⟨row₁, hn, hns⟩ := bind_eq_ok.mp h
    have hshaped := H.1 hrow.1 hn
    obtain ⟨⟨fields₁, rfl⟩, hkeep⟩ := get?_fillRow hn
    have hothers : ShapedAll false ns (.obj fields₁) := by
      rw [shapedAll_iff] at hrow ⊢
      refine fun c hc => (hrow.2 c hc).congr (hkeep c.name ?_)
      exact fun heq => hnames.1 (heq ▸ List.mem_map_of_mem hc)
    obtain ⟨⟨hobj, hrest⟩, hkeep'⟩ := ih hnames.2 H.2 hothers hns
    refine ⟨⟨hobj, ?_⟩, fun k hk => ?_⟩
    · rw [ShapedAll]
      exact ⟨hshaped.congr (hkeep' n.name hnames.1), hrest⟩
    · rw [List.map_cons, List.mem_cons, not_or] at hk
      rw [hkeep' k hk.2, hkeep k hk.1]

theorem shaped_fillRow (hn : n.Rooted s Q m) {fields : Fields}
    (hrow : Shaped false n (.obj fields)) (h : fillRow s t n b (.obj fields) = .ok row') :
    Shaped true n row' := by
  induction hn generalizing t b fields row' with
  | @node m target assoc n _ _ _ _ hnames hi ih =>
    have hbelow : ∀ {t bs d d'}, IsShaped false n.includes d →
        fillRowAll s t n.includes bs d = .ok d' → IsShaped true n.includes d' := by
      rintro t bs _ d' ⟨⟨inner, rfl⟩, hshaped⟩ h
      exact (shaped_fillRowAll_of hnames (fun c hc _ _ _ hrow h => ih c hc hrow h) hshaped h).1
    rw [fillRow_eq] at h
    obtain ⟨below, -, h⟩ := bind_eq_ok.mp h
    split at h
    · obtain ⟨assoc, -, h⟩ := bind_eq_ok.mp h
      obtain ⟨owned, -, h⟩ := bind_eq_ok.mp h
      obtain ⟨own, hown, h⟩ := bind_eq_ok.mp h
      obtain ⟨children, hchildren, h⟩ := bind_eq_ok.mp h
      cases h
      have hget : (setField n.name (gathered n.kind children) (.obj fields)).get? n.name =
          some (gathered n.kind children) := by
        rw [get?_setField, if_pos rfl]
      refine shaped_of_gathered (fun d' hd' => ?_) hget
      obtain ⟨d, hd, hfill⟩ := mem_of_mapM hchildren hd'
      exact hbelow (shaped_assemble ⟨hnames, hi⟩ hown d hd) hfill
    · rename_i hseparate
      have hjoined := Bool.eq_false_iff.mpr hseparate
      split at h
      · exact shaped_fillUnder hjoined hbelow hrow h
      · rename_i hany
        cases h
        refine hrow.complete ?_
        rw [isSeparated_eq, hjoined, Bool.false_or]
        exact Bool.eq_false_iff.mpr hany

/-- Every row of a plan, and every object below it, has a value of the right kind for each node that
is separate or serves more than a path, whatever the statements find. -/
theorem shaped_findAll {p : Plan} {rows' : List Document} {σ σ' : Session}
    (hm : s.model p.model = .ok m) (hnodes : Include.Forest s (fun _ _ => True) m p.includes)
    (h : Exchange.Runs (p.findAll s) σ rows' σ') : ∀ row ∈ rows', IsShaped true p.includes row := by
  obtain ⟨m', _, hplan, h⟩ := Exchange.runs_bind.mp h
  obtain ⟨hm', rfl⟩ := Exchange.runs_ofPlan.mp hplan
  cases hm.symm.trans hm'
  obtain ⟨q, _, hplan, h⟩ := Exchange.runs_bind.mp h
  obtain ⟨-, rfl⟩ := Exchange.runs_ofPlan.mp hplan
  obtain ⟨flat, σ₁, -, h⟩ := Exchange.runs_bind.mp h
  obtain ⟨rows, _, hplan, h⟩ := Exchange.runs_bind.mp h
  obtain ⟨hassembled, rfl⟩ := Exchange.runs_ofPlan.mp hplan
  obtain ⟨bs, -, hfilled⟩ := loadAll_rowwise h
  intro row' hrow'
  obtain ⟨row, hrow, hfill⟩ := mem_of_mapM hfilled hrow'
  obtain ⟨⟨fields, rfl⟩, hshaped⟩ := shaped_assemble hnodes hassembled row hrow
  exact (shaped_fillRowAll_of hnodes.names
    (fun n hn _ _ _ hrow h => shaped_fillRow (hnodes.rooted n hn) hrow h) hshaped hfill).1

/-! ### Teams with their captain joined, and with players and shirts loaded -/

def captainNode : Include where
  target := "Player"
  name := "captain"
  kind := .belongsTo
  attributes := ["id"]

def leaguePlan : Plan where
  model := "Team"
  attributes := [.column "id"]
  includes := [playersNode, captainNode]

theorem leaguePlan_forest :
    Include.Forest leagueSchema (fun _ _ => True) teamModel leaguePlan.includes := by
  have hshirts : shirtsNode.Rooted leagueSchema (fun _ _ => True) playerModel :=
    .of_forest (t := league.models[2].resolve) rfl rfl rfl nofun .nil
  have hcaptain : captainNode.Rooted leagueSchema (fun _ _ => True) teamModel :=
    .of_forest (t := playerModel) rfl rfl rfl nofun .nil
  have hplayers : playersNode.Rooted leagueSchema (fun _ _ => True) teamModel :=
    .of_forest (t := playerModel) rfl rfl rfl nofun (.singleton hshirts)
  refine ⟨by decide, ?_⟩
  simp only [leaguePlan, List.forall_mem_cons]
  exact ⟨hplayers, hcaptain, nofun⟩

/-- Replies in which columns are missing: the captain of a team, and the owner of a shirt. -/
def leagueReplies : Session where
  replies := [
    .rows [[("id", .str "a"), ("captain.id", .str "p")], [("id", .str "b")]],
    .rows [[("id", .str "p"), (parentKeyColumn, .str "a")]],
    .rows [[("id", .str "s")]]]

def leagueRows : List Document := [
  .obj [("id", .str "a"), ("captain", .obj [("id", .str "p")]), ("players", .arr [
    .obj [("id", .str "p"), ("shirts", .arr [])]])],
  .obj [("id", .str "b"), ("captain", .null), ("players", .arr [])]]

theorem leagueRows_run :
    ∃ σ', Exchange.Runs (leaguePlan.findAll leagueSchema) leagueReplies leagueRows σ' := by
  obtain ⟨q, hq⟩ : ∃ q, leaguePlan.statement leagueSchema = .ok q := ⟨_, rfl⟩
  have hassembled : assemble leagueSchema teamModel leaguePlan.includes
      [[("id", .str "a"), ("captain.id", .str "p")], [("id", .str "b")]] =
      .ok [.obj [("id", .str "a"), ("captain", .obj [("id", .str "p")])],
        .obj [("id", .str "b"), ("captain", .null)]] := rfl
  have hloaded : ∀ q, ∃ σ', Exchange.Runs (loadAll leagueSchema teamModel leaguePlan.includes
      [.obj [("id", .str "a"), ("captain", .obj [("id", .str "p")])],
        .obj [("id", .str "b"), ("captain", .null)]]) (leagueReplies.next q) leagueRows σ' :=
    fun _ => ⟨_, rfl⟩
  obtain ⟨σ', hloaded⟩ := hloaded q
  refine ⟨σ', Exchange.runs_bind.mpr ⟨teamModel, _, rfl, ?_⟩⟩
  refine Exchange.runs_bind.mpr ⟨q, _, Exchange.runs_ofPlan.mpr ⟨hq, rfl⟩, ?_⟩
  refine Exchange.runs_bind.mpr ⟨_, leagueReplies.next q, rfl, ?_⟩
  exact Exchange.runs_bind.mpr ⟨_, _, Exchange.runs_ofPlan.mpr ⟨hassembled, rfl⟩, hloaded⟩

theorem leagueRows_shaped : ∃ σ',
    Exchange.Runs (leaguePlan.findAll leagueSchema) leagueReplies leagueRows σ' ∧
      ∀ row ∈ leagueRows, IsShaped true leaguePlan.includes row := by
  obtain ⟨σ', h⟩ := leagueRows_run
  exact ⟨σ', h, shaped_findAll (m := teamModel) rfl leaguePlan_forest h⟩

end RelQuery.Rows

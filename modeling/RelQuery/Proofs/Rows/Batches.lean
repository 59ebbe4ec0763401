import RelQuery.Proofs.Document.Distinct
import RelQuery.Proofs.Rows.Merge
import RelQuery.Proofs.Rows.Session
import RelQuery.Rows.Load
import RelQuery.Schema.Build

/-!
# Loading, row by row

Separate nodes are loaded for all rows at once: children are taken out of the rows, put in one list,
cut up and put back. What each row gets depends on this row and on what the statements have found.
-/

namespace RelQuery.Rows

/-- What was read for a node: the rows of its own statement, if one was asked, and what was read for
the nodes below it. -/
inductive Batches
  | node (fetched : Option (List Row)) (parts : List Batches)

namespace Batches

def fetched : Batches → Option (List Row)
  | node fetched _ => fetched

def parts : Batches → List Batches
  | node _ parts => parts

mutual

/-- All batches in the order in which they were read. -/
def all : Batches → List (List Row)
  | node fetched parts => fetched.toList ++ allOf parts

def allOf : List Batches → List (List Row)
  | [] => []
  | b :: bs => all b ++ allOf bs

end

end Batches

/-! ## What one row gets -/

/-- The text of the owner that a fetched row carries. -/
def ownerOf (row : Row) : String :=
  (((row.erase rowNumberColumn).lookup parentKeyColumn).getD .null).compact

/-- A fetched row without the columns that serve its distribution. -/
def stripped (row : Row) : Row := (row.erase rowNumberColumn).erase parentKeyColumn

/-- The text of the key of a row, by which it owns fetched rows. -/
def ownerText (key : String) (row : Document) : String :=
  match row.get? key with
  | some value => value.compact
  | none => ""

/-- Whether a row has no value under a key. -/
def lacksKey (key : String) (row : Document) : Bool :=
  match row.get? key with
  | none | some .null => true
  | _ => false

/-- The fetched rows that a row of `m` owns. If nothing was asked there are none, and no row may
have a key. -/
def ownedRows (m : Model) (key : String) (answer : Option (List Row)) (row : Document) :
    Except PlanError (List Row) :=
  match answer with
  | some fetched => .ok ((fetched.filter (ownerOf · = ownerText key row)).map stripped)
  | none => if lacksKey key row then .ok [] else .error (m.unknownField key)

/-- A row of `m` with the rows that it owns set under the name of a node, assembled and then filled
by `F`. -/
def fillOwned (s : Schema) (m target : Model) (n : Include) (key : String)
    (answer : Option (List Row)) (F : Document → Except PlanError Document) (row : Document) :
    Except PlanError Document := do
  let own ← assemble s target n.includes (← ownedRows m key answer row)
  return setField n.name (gathered n.kind (← own.mapM F)) row

/-- Fills what a row has under a name. -/
def fillUnder (name : String) (F : Document → Except PlanError Document) (row : Document) :
    Except PlanError Document :=
  match row.get? name with
  | none => .ok row
  | some (.arr items) => do return setField name (.arr (← items.mapM F)) row
  | some (.obj fields) => do return setField name (← F (.obj fields)) row
  | some _ => .ok (setField name .null row)

mutual

/-- A row of `m` with a node loaded into it, from what was read: a separate node gets the rows that
the row owns, assembled, with the nodes below it loaded into them in the same way. -/
def fillRow (s : Schema) (m : Model) :
    Include → Batches → Document → Except PlanError Document
  | ⟨target, name, kind, attributes, filter, includes, required, limit, offset, separate⟩, b, row => do
    let n : Include :=
      ⟨target, name, kind, attributes, filter, includes, required, limit, offset, separate⟩
    let t ← s.model target
    if separate then
      let assoc ← m.requireAssociation name
      fillOwned s m t n (assoc.parentKey m) b.fetched (fillRowAll s t includes b.parts) row
    else if anySeparated includes then fillUnder name (fillRowAll s t includes b.parts) row
    else return row

def fillRowAll (s : Schema) (m : Model) :
    List Include → List Batches → Document → Except PlanError Document
  | [], _, row => .ok row
  | n :: ns, bs, row => do
    fillRowAll s m ns bs.tail (← fillRow s m n (bs.headD (.node none [])) row)

end

variable {s : Schema} {m t parent target : Model} {n : Include} {ns : List Include}
  {b : Batches} {bs : List Batches} {row : Document} {rows rows' children : List Document}
  {fetched : List Row} {owned : List (String × List Row)} {name owner key : String}
  {k : String} {F : Document → Except PlanError Document} {σ σ' : Session}

theorem fillRow_eq : fillRow s m n b row = (do
    let t ← s.model n.target
    if n.separate then
      let assoc ← m.requireAssociation n.name
      fillOwned s m t n (assoc.parentKey m) b.fetched (fillRowAll s t n.includes b.parts) row
    else if anySeparated n.includes then fillUnder n.name (fillRowAll s t n.includes b.parts) row
    else return row) := by
  cases n
  rw [fillRow]

/-! ## Separate nodes -/

theorem parentKeys_eq_nil_iff :
    parentKeys key rows = [] ↔ ∀ row ∈ rows, lacksKey key row = true := by
  have hvalue : ∀ {row : Document}, lacksKey key row = true ↔
      ∀ v, row.get? key = some v → v.isNull = true := by
    intro row
    rw [lacksKey]
    cases row.get? key with
    | none => exact iff_of_true rfl nofun
    | some v => cases v <;> simp [Document.isNull]
  rw [parentKeys, List.eq_nil_iff_forall_not_mem]
  simp only [Document.mem_distinctByText, List.mem_filter, List.mem_filterMap, hvalue]
  constructor
  · intro h row hrow v hv
    have hnot := h v
    rw [not_and] at hnot
    simpa using hnot ⟨row, hrow, hv⟩
  · rintro h v ⟨⟨row, hrow, hv⟩, hnot⟩
    rw [h row hrow v hv] at hnot
    cases hnot

theorem lookup_owned : ((fetched.foldl addOwned []).lookup owner).getD [] =
    (fetched.filter (ownerOf · = owner)).map stripped := by
  have hfold : fetched.foldl addOwned [] =
      (fetched.map fun row => (ownerOf row, stripped row)).foldl addChild [] := by
    rw [List.foldl_map]
    rfl
  rw [hfold, lookup_foldl_addChild, List.filter_map, List.map_map]
  rfl

/-- Rows that are cut back by the recorded lengths come to the owner they were made for. -/
theorem lookup_distribute (owner : String) {A : List Row → Except PlanError (List Document)}
    (hA : A [] = .ok [])
    {assembled : List (String × List Document)}
    (hassembled : (owned.mapM fun o => do return (o.1, ← A o.2)) = .ok assembled)
    (hchildren : (assembled.flatMap (·.2)).mapM F = .ok children) :
    ∃ own, A ((owned.lookup owner).getD []) = .ok own ∧ own.mapM F =
      .ok (((distribute (assembled.map fun o => (o.1, o.2.length)) children).lookup owner).getD
        []) := by
  induction owned generalizing assembled children with
  | nil =>
    cases pure_eq_ok.mp hassembled
    exact ⟨[], hA, rfl⟩
  | cons o owned ih =>
    obtain ⟨_, assembled, ho, hrestOwned, rfl⟩ := mapM_cons_eq_ok.mp hassembled
    obtain ⟨own, hown, ho⟩ := bind_eq_ok.mp ho
    cases ho
    obtain ⟨first, rest, hfirst, hrest, rfl⟩ := mapM_append_eq_ok.mp hchildren
    have hlength := length_of_mapM hfirst
    rw [List.map_cons, distribute, List.take_left' hlength, List.drop_left' hlength,
      lookup_cons_if, lookup_cons_if]
    split
    · exact ⟨own, hown, hfirst⟩
    · exact ih hrestOwned hrest

theorem runs_distribution {below : List Document → Exchange (List Document)}
    (h : Exchange.Runs (do
      let assembled ← Exchange.ofPlan <| (fetched.foldl addOwned []).mapM fun (owner, rows) => do
        return (owner, ← assemble s target n.includes rows)
      let children ← below (assembled.flatMap (·.2))
      let owned := distribute (assembled.map fun (owner, rows) => (owner, rows.length)) children
      return rows.map (attachOwned n key owned)) σ rows' σ') :
    ∃ assembled children, ((fetched.foldl addOwned []).mapM fun o => do
        return (o.1, ← assemble s target n.includes o.2)) = .ok assembled ∧
      Exchange.Runs (below (assembled.flatMap (·.2))) σ children σ' ∧
      rows' = rows.map (attachOwned n key
        (distribute (assembled.map fun o => (o.1, o.2.length)) children)) := by
  obtain ⟨assembled, _, hplan, h⟩ := Exchange.runs_bind.mp h
  obtain ⟨hassembled, rfl⟩ := Exchange.runs_ofPlan.mp hplan
  obtain ⟨children, _, hbelow, h⟩ := Exchange.runs_bind.mp h
  obtain ⟨rfl, rfl⟩ := Exchange.runs_pure.mp h
  exact ⟨assembled, children, hassembled, hbelow, rfl⟩

/-- The steps of a fetch: one statement is asked if any row has a key, and what it finds is
distributed. -/
theorem runs_fetch {below : List Document → Exchange (List Document)}
    (h : Exchange.Runs (fetch s parent target n rows below) σ rows' σ') :
    ∃ assoc, ∃ answer : Option (List Row), ∃ assembled children σ₁,
      parent.requireAssociation n.name = .ok assoc ∧
      (answer = none ↔ parentKeys (assoc.parentKey parent) rows = []) ∧
      σ.Reads answer.toList σ₁ ∧
      (((answer.getD []).foldl addOwned []).mapM fun o => do
        return (o.1, ← assemble s target n.includes o.2)) = .ok assembled ∧
      Exchange.Runs (below (assembled.flatMap (·.2))) σ₁ children σ' ∧
      rows' = rows.map (attachOwned n (assoc.parentKey parent)
        (distribute (assembled.map fun o => (o.1, o.2.length)) children)) := by
  obtain ⟨assoc, _, hplan, h⟩ := Exchange.runs_bind.mp h
  obtain ⟨hassoc, rfl⟩ := Exchange.runs_ofPlan.mp hplan
  dsimp only at h
  split at h
  · rename_i hkeys
    obtain ⟨fetched, σ₁, hfetched, h⟩ := Exchange.runs_bind.mp h
    obtain ⟨rfl, rfl⟩ := Exchange.runs_pure.mp hfetched
    obtain ⟨assembled, children, hassembled, hbelow, hrows⟩ := runs_distribution h
    have hnone : (none : Option (List Row)) = none ↔ parentKeys (assoc.parentKey parent) rows = [] :=
      iff_of_true rfl (List.isEmpty_iff.mp hkeys)
    exact ⟨assoc, none, assembled, children, _, hassoc, hnone, .nil, hassembled, hbelow, hrows⟩
  · rename_i hkeys
    obtain ⟨q, _, hq, h⟩ := Exchange.runs_bind.mp h
    obtain ⟨-, rfl⟩ := Exchange.runs_ofPlan.mp hq
    obtain ⟨fetched, σ₁, hfetched, h⟩ := Exchange.runs_bind.mp h
    obtain ⟨hanswers, rfl⟩ := Exchange.answers_of_ask hfetched
    obtain ⟨assembled, children, hassembled, hbelow, hrows⟩ := runs_distribution h
    have hsome : some fetched = none ↔ parentKeys (assoc.parentKey parent) rows = [] :=
      iff_of_false nofun (mt List.isEmpty_iff.mpr hkeys)
    exact ⟨assoc, some fetched, assembled, children, _, hassoc, hsome, .cons hanswers .nil,
      hassembled, hbelow, hrows⟩

/-- A fetch gives each row the rows that it owns, if what is below them is loaded row by row. -/
theorem fetch_rowwise {below : List Document → Exchange (List Document)}
    (H : ∀ {rows σ rows' σ'}, Exchange.Runs (below rows) σ rows' σ' →
      ∃ bs, σ.Reads (Batches.allOf bs) σ' ∧
        rows.mapM (fillRowAll s target n.includes bs) = .ok rows')
    (h : Exchange.Runs (fetch s parent target n rows below) σ rows' σ') :
    ∃ assoc answer bs, parent.requireAssociation n.name = .ok assoc ∧
      (answer = none ↔ parentKeys (assoc.parentKey parent) rows = []) ∧
      σ.Reads (Batches.node answer bs).all σ' ∧
      rows.mapM (fillOwned s parent target n (assoc.parentKey parent) answer
        (fillRowAll s target n.includes bs)) = .ok rows' := by
  obtain ⟨assoc, answer, assembled, children, σ₁, hassoc, hanswer, hreads, hassembled, hbelow, rfl⟩ :=
    runs_fetch h
  obtain ⟨bs, hreads', hfilled⟩ := H hbelow
  refine ⟨assoc, answer, bs, hassoc, hanswer, hreads.append hreads',
    mapM_of_eq_ok fun row hrow => ?_⟩
  obtain ⟨own, hown, hchildren⟩ := lookup_distribute
    (ownerText (assoc.parentKey parent) row) rfl hassembled hfilled
  rw [lookup_owned] at hown
  have howned : ownedRows parent (assoc.parentKey parent) answer row = .ok
      (((answer.getD []).filter (ownerOf · = ownerText (assoc.parentKey parent) row)).map
        stripped) := by
    cases answer with
    | some fetched => rfl
    | none => exact if_pos (parentKeys_eq_nil_iff.mp (hanswer.mp rfl) row hrow)
  rw [fillOwned, howned, ok_bind, hown, ok_bind, hchildren, ok_bind, ← associationValue_eq]
  rfl

/-! ## Joined nodes -/

theorem setField_setField {value value' : Document} :
    setField name value (setField name value' row) = setField name value row := by
  cases row with
  | obj fields => exact congrArg Document.obj Fields.insert_insert
  | _ => rfl

theorem get?_setField {fields : Fields} {value : Document} :
    (setField name value (.obj fields)).get? k =
      if k = name then some value else (Document.obj fields).get? k :=
  Fields.lookup_insert

/-- A row with other values in place of those it has under a name. -/
def refilled (name : String) (own : List Document) (row : Document) : Document :=
  match row.get? name with
  | none => row
  | some (.arr _) => setField name (.arr own) row
  | some (.obj _) => setField name (own.head?.getD .null) row
  | some _ => setField name .null row

/-- A row gets as many values as were taken from it, and the next rows get the others. -/
theorem putChildren_taken {own : List Document} {slots : List Slot}
    (hlength : own.length = (takeFrom name row).2.1.length) :
    putChildren name ((takeFrom name row).1 :: rows) ((takeFrom name row).2.2 :: slots)
      (own ++ children) = refilled name own row :: putChildren name rows slots children := by
  unfold refilled
  unfold takeFrom at hlength ⊢
  cases hvalue : row.get? name with
  | none =>
    rw [hvalue] at hlength
    cases List.eq_nil_of_length_eq_zero hlength
    rfl
  | some value =>
    rw [hvalue] at hlength
    cases value with
    | arr items =>
      have hitems : own.length = items.length := hlength
      dsimp only
      rw [putChildren, List.take_left' hitems, List.drop_left' hitems, setField_setField]
    | obj fields =>
      obtain ⟨child, rfl⟩ := List.length_eq_one_iff.mp hlength
      dsimp only
      rw [putChildren, setField_setField]
      rfl
    | _ =>
      cases List.eq_nil_of_length_eq_zero hlength
      rfl

/-- What fills the values of a row fills the row. -/
theorem fillUnder_eq {own : List Document} (h : (takeFrom name row).2.1.mapM F = .ok own) :
    fillUnder name F row = .ok (refilled name own row) := by
  unfold fillUnder refilled
  unfold takeFrom at h
  cases hvalue : row.get? name with
  | none => rfl
  | some value =>
    rw [hvalue] at h
    cases value with
    | arr items =>
      have hitems : items.mapM F = .ok own := h
      dsimp only
      rw [hitems]
      rfl
    | obj fields =>
      obtain ⟨filled, rest, hfilled, -, rfl⟩ := mapM_cons_eq_ok.mp h
      dsimp only
      rw [hfilled]
      rfl
    | _ => rfl

/-- Values that are put back come to the row they were taken from. -/
theorem putChildren_rowwise (h : (takeChildren name rows).2.1.mapM F = .ok children) :
    rows.mapM (fillUnder name F) = .ok
      (putChildren name (takeChildren name rows).1 (takeChildren name rows).2.2 children) := by
  induction rows generalizing children with
  | nil => rfl
  | cons row rows ih =>
    have hsplit : (takeChildren name (row :: rows)).2.1 =
        (takeFrom name row).2.1 ++ (takeChildren name rows).2.1 := rfl
    rw [hsplit] at h
    obtain ⟨own, rest, hown, hrest, rfl⟩ := mapM_append_eq_ok.mp h
    exact mapM_cons_eq_ok.mpr
      ⟨_, _, fillUnder_eq hown, ih hrest, putChildren_taken (length_of_mapM hown)⟩

/-! ## All nodes -/

theorem load_eq : load s m n rows = (do
    let below ← Exchange.ofPlan (s.model n.target)
    if n.separate then fetch s m below n rows (loadAll s below n.includes)
    else if anySeparated n.includes then
      let (rows, children, slots) := takeChildren n.name rows
      return putChildren n.name rows slots (← loadAll s below n.includes children)
    else return rows) := by
  cases n
  rw [load]

theorem loadAll_rowwise_of
    (H : ∀ n ∈ ns, ∀ {rows σ rows' σ'}, Exchange.Runs (load s m n rows) σ rows' σ' →
      ∃ b : Batches, σ.Reads b.all σ' ∧ rows.mapM (fillRow s m n b) = .ok rows')
    (h : Exchange.Runs (loadAll s m ns rows) σ rows' σ') :
    ∃ bs, σ.Reads (Batches.allOf bs) σ' ∧ rows.mapM (fillRowAll s m ns bs) = .ok rows' := by
  induction ns generalizing rows σ with
  | nil =>
    obtain ⟨rfl, rfl⟩ := Exchange.runs_pure.mp h
    exact ⟨[], .nil, (mapM_of_eq_ok fun row _ => by rw [fillRowAll]; rfl).trans
      (congrArg Except.ok (List.map_id _))⟩
  | cons n ns ih =>
    rw [List.forall_mem_cons] at H
    obtain ⟨rows₁, σ₁, hn, hns⟩ := Exchange.runs_bind.mp h
    obtain ⟨b, hb, hfirst⟩ := H.1 hn
    obtain ⟨bs, hbs, hrest⟩ := ih H.2 hns
    refine ⟨b :: bs, hb.append hbs, ?_⟩
    rw [← mapM_mapM hfirst hrest]
    refine mapM_congr fun row _ => ?_
    rw [fillRowAll]
    rfl

/-- Loading a node fills each row by itself, from what was read. -/
theorem load_rowwise (h : Exchange.Runs (load s m n rows) σ rows' σ') :
    ∃ b : Batches, σ.Reads b.all σ' ∧ rows.mapM (fillRow s m n b) = .ok rows' := by
  induction n generalizing m rows σ rows' σ' with
  | node n ih =>
    rw [load_eq] at h
    obtain ⟨t, _, hplan, h⟩ := Exchange.runs_bind.mp h
    obtain ⟨ht, rfl⟩ := Exchange.runs_ofPlan.mp hplan
    have hbelow : ∀ {rows σ rows' σ'}, Exchange.Runs (loadAll s t n.includes rows) σ rows' σ' →
        ∃ bs, σ.Reads (Batches.allOf bs) σ' ∧
          rows.mapM (fillRowAll s t n.includes bs) = .ok rows' :=
      fun h => loadAll_rowwise_of (fun c hc _ _ _ _ h => ih c hc h) h
    split at h
    · rename_i hn
      obtain ⟨assoc, answer, bs, hassoc, -, hreads, hfilled⟩ := fetch_rowwise hbelow h
      refine ⟨.node answer bs, hreads, (mapM_congr fun row _ => ?_).trans hfilled⟩
      rw [fillRow_eq, ht, ok_bind, if_pos hn, hassoc]
      rfl
    · rename_i hn
      split at h
      · rename_i hany
        obtain ⟨children, σ₁, hchildren, h⟩ := Exchange.runs_bind.mp h
        obtain ⟨rfl, rfl⟩ := Exchange.runs_pure.mp h
        obtain ⟨bs, hreads, hfilled⟩ := hbelow hchildren
        refine ⟨.node none bs, hreads, ?_⟩
        refine (mapM_congr fun row _ => ?_).trans (putChildren_rowwise hfilled)
        rw [fillRow_eq, ht, ok_bind, if_neg hn, if_pos hany]
        rfl
      · rename_i hany
        obtain ⟨rfl, rfl⟩ := Exchange.runs_pure.mp h
        refine ⟨.node none [], .nil, (mapM_of_eq_ok fun row _ => ?_).trans
          (congrArg Except.ok (List.map_id _))⟩
        rw [fillRow_eq, ht, ok_bind, if_neg hn, if_neg hany]
        rfl

/-- Loading several nodes fills each row by itself, from what was read. -/
theorem loadAll_rowwise (h : Exchange.Runs (loadAll s m ns rows) σ rows' σ') :
    ∃ bs, σ.Reads (Batches.allOf bs) σ' ∧ rows.mapM (fillRowAll s m ns bs) = .ok rows' :=
  loadAll_rowwise_of (fun _ _ _ _ _ _ h => load_rowwise h) h

/-! ### Teams, their players and the shirts of these -/

def league : Config where
  models := [
    { name := "Team"
      attributes := [{ name := "id", type := "TEXT", primaryKey := true },
        { name := "captainId", type := "TEXT" }]
      associations := [
        { kind := .hasMany, target := "Player", declaredName := some "players",
          foreignKey := "team" },
        { kind := .belongsTo, target := "Player", declaredName := some "captain",
          foreignKey := "captainId" }] },
    { name := "Player"
      attributes := [{ name := "id", type := "TEXT", primaryKey := true },
        { name := "team", type := "TEXT" }]
      associations := [{
        kind := .hasMany
        target := "Shirt"
        declaredName := some "shirts"
        foreignKey := "player" }] },
    { name := "Shirt"
      attributes := [{ name := "id", type := "TEXT", primaryKey := true },
        { name := "player", type := "TEXT" }] }]

def leagueSchema : Schema := ⟨league.models.map (·.resolve), league.options⟩

def shirtsNode : Include where
  target := "Shirt"
  name := "shirts"
  kind := .hasMany
  attributes := ["id"]
  separate := true

def playersNode : Include where
  target := "Player"
  name := "players"
  kind := .hasMany
  attributes := ["id"]
  includes := [shirtsNode]
  limit := some 2
  separate := true

def teamModel : Model := league.models[0].resolve

def playerModel : Model := league.models[1].resolve

end RelQuery.Rows

import Mathlib.Data.List.Forall2
import RelQuery.Proofs.Document.Compact
import RelQuery.Proofs.Rows.Batches

/-!
# Children of each parent

A separate node is loaded for many rows by one statement. Each row gets the fetched rows that carry
its key, in the order in which they were fetched, and nothing of another row.
-/

namespace RelQuery.Rows

/-- A row that a statement for a separate node has found: it carries the key of its owner. -/
structure Owned (row : Row) : Prop where
  names : (row.map (·.1)).Nodup
  exists_owner : ∃ v, row.lookup "__parent__" = some v ∧ v ≠ .null

/-- The fetched rows that carry the key of a row, without the columns that serve their
distribution. Without a key there are none. -/
def childRows (key : String) (fetched : List Row) (row : Document) : List Row :=
  match row.get? key with
  | none | some .null => []
  | some v =>
    (fetched.filter fun r => (r.lookup "__parent__").any (·.compact == v.compact)).map stripped

variable {s : Schema} {parent target : Model} {n : Include} {r : Row} {fetched : List Row}
  {row row' v : Document} {rows rows' : List Document} {key name k : String} {σ σ' : Session}

/-- Stripping takes out two columns and keeps all others. -/
theorem perm_stripped (h : (r.map (·.1)).Nodup) :
    (stripped r).Perm (r.filter (·.1 ∉ ["__parent__", "__rn__"])) := by
  have hnumber : (r.erase rowNumberColumn).Perm (r.filter (·.1 ≠ rowNumberColumn)) :=
    Fields.perm_erase h
  refine ((Fields.perm_erase (Fields.nodup_erase h)).trans (hnumber.filter _)).trans ?_
  rw [List.filter_filter]
  refine .of_eq (List.filter_congr fun c _ => ?_)
  rw [Bool.eq_iff_iff]
  simp only [Bool.and_eq_true, decide_eq_true_eq]
  simp [parentKeyColumn, rowNumberColumn]

theorem Owned.ownerOf_eq (h : Owned r) (hv : r.lookup "__parent__" = some v) :
    ownerOf r = v.compact := by
  have hne : parentKeyColumn ≠ rowNumberColumn := by decide
  rw [ownerOf, Fields.lookup_erase h.names, if_neg hne, parentKeyColumn, hv]
  rfl

/-- No fetched row belongs to a text that no key has. -/
theorem filter_ownerOf_eq_nil {text : String} (hfetched : ∀ r ∈ fetched, Owned r)
    (htext : ∀ v : Document, v ≠ .null → v.compact ≠ text) :
    fetched.filter (ownerOf · = text) = [] := by
  refine List.filter_eq_nil_iff.mpr fun r hr howner => ?_
  obtain ⟨v, hv, hnull⟩ := (hfetched r hr).exists_owner
  refine htext v hnull ?_
  rw [← (hfetched r hr).ownerOf_eq hv]
  exact of_decide_eq_true howner

theorem filter_ownerOf_compact (hfetched : ∀ r ∈ fetched, Owned r) (v : Document) :
    fetched.filter (ownerOf · = v.compact) =
      fetched.filter fun r => (r.lookup "__parent__").any (·.compact == v.compact) := by
  apply List.filter_congr
  intro r hr
  obtain ⟨w, hw, -⟩ := (hfetched r hr).exists_owner
  rw [(hfetched r hr).ownerOf_eq hw, hw]
  rfl

/-- The rows with the text of the key of a row are those that carry its key. -/
theorem filter_ownerOf (hfetched : ∀ r ∈ fetched, Owned r) :
    (fetched.filter (ownerOf · = ownerText key row)).map stripped =
      childRows key fetched row := by
  unfold childRows ownerText
  cases row.get? key with
  | none =>
    have hempty : ∀ v : Document, v ≠ .null → v.compact ≠ "" := by
      intro v _ hv
      obtain ⟨c, cs, hc, -⟩ := Document.exists_opening v
      rw [hv] at hc
      cases hc
    dsimp only
    rw [filter_ownerOf_eq_nil hfetched hempty]
    rfl
  | some v =>
    cases v with
    | null =>
      have hnull : ∀ v : Document, v ≠ .null → v.compact ≠ Document.null.compact :=
        fun v hv heq => hv (Document.compact_injective heq)
      dsimp only
      rw [filter_ownerOf_eq_nil hfetched hnull]
      rfl
    | _ => exact congrArg (List.map stripped) (filter_ownerOf_compact hfetched _)

/-- A row owns the fetched rows that carry its key. -/
theorem ownedRows_eq {answer : Option (List Row)} {own : List Row}
    (hanswer : ∀ r ∈ answer.getD [], Owned r)
    (h : ownedRows parent key answer row = .ok own) :
    own = childRows key (answer.getD []) row := by
  cases answer with
  | some fetched =>
    cases h
    exact filter_ownerOf hanswer
  | none =>
    rw [ownedRows] at h
    split at h
    · cases h
      have hnone : ∀ r ∈ ([] : List Row), Owned r := hanswer
      exact filter_ownerOf hnone
    · cases h

/-- After a fetch there are the same rows in the same order. Each has under the name of the node what
the fetched rows with its key are assembled to, with the nodes below loaded into them row by row, and
keeps everything else. One statement is asked if any row has a key, and no other but those for the
nodes below. -/
theorem fetch_owned
    (h : Exchange.Runs (fetch s parent target n rows (loadAll s target n.includes)) σ rows' σ')
    (hrows : ∀ row ∈ rows, ∃ fields, row = .obj fields)
    (hanswers : ∀ batch, σ.Answers batch → ∀ r ∈ batch, Owned r) :
    ∃ assoc answer bs, parent.requireAssociation n.name = .ok assoc ∧
      (answer = none ↔ parentKeys (assoc.parentKey parent) rows = []) ∧
      σ.Reads (answer.toList ++ Batches.allOf bs) σ' ∧
      (∀ r ∈ answer.getD [], (stripped r).Perm (r.filter (·.1 ∉ ["__parent__", "__rn__"]))) ∧
      List.Forall₂ (fun row row' => ∃ own children,
        assemble s target n.includes
          (childRows (assoc.parentKey parent) (answer.getD []) row) = .ok own ∧
        own.mapM (fillRowAll s target n.includes bs) = .ok children ∧
        row'.get? n.name = some (gathered n.kind children) ∧
        ∀ k, k ≠ n.name → row'.get? k = row.get? k) rows rows' := by
  obtain ⟨assoc, answer, bs, hassoc, hanswer, hreads, hfilled⟩ := fetch_rowwise loadAll_rowwise h
  have hfetched : ∀ r ∈ answer.getD [], Owned r := by
    cases answer with
    | none => exact List.forall_mem_nil _
    | some batch =>
      cases hreads with
      | cons hbatch _ => exact hanswers batch hbatch
  refine ⟨assoc, answer, bs, hassoc, hanswer, hreads,
    fun r hr => perm_stripped (hfetched r hr).names, ?_⟩
  refine ((List.forall₂_and_left _ _).mpr ⟨hrows, forall₂_of_mapM hfilled⟩).imp ?_
  rintro _ row' ⟨⟨fields, rfl⟩, hrow⟩
  obtain ⟨owned, howned, hrow⟩ := bind_eq_ok.mp hrow
  obtain ⟨own, hown, hrow⟩ := bind_eq_ok.mp hrow
  obtain ⟨children, hchildren, hrow⟩ := bind_eq_ok.mp hrow
  cases hrow
  rw [ownedRows_eq hfetched howned] at hown
  refine ⟨own, children, hown, hchildren, ?_, fun k hk => ?_⟩
  · rw [get?_setField, if_pos rfl]
  · rw [get?_setField, if_neg hk]

/-! ### Two teams with their first players, and all shirts of these -/

/-- A fetched row with the key of its owner. -/
def fetchedRow (id owner : String) : Row :=
  [("id", .str id), ("__rn__", .str "1"), ("__parent__", .str owner)]

def leagueSession : Session where
  replies := [
    .rows [fetchedRow "p" "b", fetchedRow "q" "a", fetchedRow "r" "b"],
    .rows [fetchedRow "s" "r", fetchedRow "t" "q"]]

/-- Two teams, and a row without a key. -/
def teams : List Document := [
  .obj [("id", .str "a")],
  .obj [("name", .str "x")],
  .obj [("id", .str "b")]]

def loadedTeams : List Document := [
  .obj [("id", .str "a"), ("players", .arr [
    .obj [("id", .str "q"), ("shirts", .arr [.obj [("id", .str "t")]])]])],
  .obj [("name", .str "x"), ("players", .arr [])],
  .obj [("id", .str "b"), ("players", .arr [
    .obj [("id", .str "p"), ("shirts", .arr [])],
    .obj [("id", .str "r"), ("shirts", .arr [.obj [("id", .str "s")]])]])]]

theorem teams_run : ∃ σ', Exchange.Runs (fetch leagueSchema teamModel playerModel playersNode teams
    (loadAll leagueSchema playerModel [shirtsNode])) leagueSession loadedTeams σ' :=
  ⟨_, rfl⟩

theorem owned_fetchedRow (id owner : String) : Owned (fetchedRow id owner) := by
  refine ⟨?_, .str owner, rfl, nofun⟩
  change ["id", "__rn__", "__parent__"].Nodup
  decide

theorem loadedTeams_owned : ∃ σ' assoc answer bs,
    teamModel.requireAssociation playersNode.name = .ok assoc ∧
      (answer = none ↔ parentKeys (assoc.parentKey teamModel) teams = []) ∧
      leagueSession.Reads (answer.toList ++ Batches.allOf bs) σ' ∧
      (∀ r ∈ answer.getD [], (stripped r).Perm (r.filter (·.1 ∉ ["__parent__", "__rn__"]))) ∧
      List.Forall₂ (fun row row' => ∃ own children,
        assemble leagueSchema playerModel playersNode.includes
          (childRows (assoc.parentKey teamModel) (answer.getD []) row) = .ok own ∧
        own.mapM (fillRowAll leagueSchema playerModel playersNode.includes bs) = .ok children ∧
        row'.get? playersNode.name = some (gathered playersNode.kind children) ∧
        ∀ k, k ≠ playersNode.name → row'.get? k = row.get? k) teams loadedTeams := by
  obtain ⟨σ', h⟩ := teams_run
  refine ⟨σ', fetch_owned h ?_ ?_⟩
  · simp only [teams, List.forall_mem_cons]
    exact ⟨⟨_, rfl⟩, ⟨_, rfl⟩, ⟨_, rfl⟩, nofun⟩
  · rintro batch (⟨hnone, -⟩ | hfirst)
    · cases hnone
    · cases hfirst
      simp only [List.forall_mem_cons]
      exact ⟨owned_fetchedRow "p" "b", owned_fetchedRow "q" "a", owned_fetchedRow "r" "b", nofun⟩

end RelQuery.Rows

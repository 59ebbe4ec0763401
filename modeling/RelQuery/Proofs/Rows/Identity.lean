import RelQuery.Proofs.Rows.Merge
import RelQuery.Proofs.Schema.Sound

/-!
# Identity of base rows

Rows belong to one base row if they have the same value under the first attribute of the primary
key. Assembling gives one object for each such value, and each object is what the rows with its value
alone are assembled to. Other attributes of the primary key are not looked at.
-/

namespace RelQuery

namespace Rows

variable {c : Config} {s : Schema} {m : Model} {nodes : List Include} {key : String} {row : Row}
  {rows : List Row} {v : Document}

/-- The values that rows have under a key, each once, in order of the first row of each. -/
def keysOf (key : String) (rows : List Row) : List Document :=
  Document.distinctByText (rows.filterMap (·.lookup key))

/-- The rows that have a value under a key. -/
def withKey (key : String) (v : Document) (rows : List Row) : List Row :=
  rows.filter fun row => (row.lookup key).any (·.compact == v.compact)

theorem mem_withKey : row ∈ withKey key v rows ↔ row ∈ rows ∧ row.lookup key = some v := by
  rw [withKey, List.mem_filter, Option.any_eq_true]
  refine and_congr_right fun _ => ?_
  constructor
  · rintro ⟨w, hw, heq⟩
    rw [hw, Document.compact_injective (beq_iff_eq.mp heq)]
  · exact fun h => ⟨v, h, beq_self_eq_true _⟩

theorem mem_keysOf : v ∈ keysOf key rows ↔ ∃ row ∈ rows, row.lookup key = some v := by
  rw [keysOf, Document.mem_distinctByText, List.mem_filterMap]

/-- A row that carries its key is recognised by it. -/
theorem Keyed.identityOf_nest (h : Keyed m.primaryKey row) (hkey : '.' ∉ m.primaryKey.toList)
    (hjoined : m.primaryKey ∉ (nodes.filter (!·.separate)).map (·.name))
    (hv : row.lookup m.primaryKey = some v) :
    identityOf m (nodes.filter (!·.separate)) (nest row) = v.compact := by
  have hlookup : (ownOf (nodes.filter (!·.separate)) (nest row)).lookup m.primaryKey = some v := by
    rw [lookup_ownOf (nodup_nest row), if_neg hjoined, h.lookup_nest hkey, hv]
  obtain ⟨w, hw, hnull⟩ := h.exists_key
  cases hv.symm.trans hw
  rw [identityOf, identity, hlookup]
  cases v with
  | null => exact absurd rfl hnull
  | _ => rfl

theorem map_identityOf_nest (hrows : ∀ row ∈ rows, Keyed m.primaryKey row)
    (hkey : '.' ∉ m.primaryKey.toList)
    (hjoined : m.primaryKey ∉ (nodes.filter (!·.separate)).map (·.name)) :
    (rows.map nest).map (identityOf m (nodes.filter (!·.separate))) =
      (rows.filterMap (·.lookup m.primaryKey)).map Document.compact := by
  induction rows with
  | nil => rfl
  | cons row rows ih =>
    rw [List.forall_mem_cons] at hrows
    obtain ⟨v, hv, -⟩ := hrows.1.exists_key
    rw [List.map_cons, List.map_cons, hrows.1.identityOf_nest hkey hjoined hv,
      List.filterMap_cons_some hv, List.map_cons, ih hrows.2]

/-- The members of a group are the rows with the value of its key. -/
theorem having_nest (hrows : ∀ row ∈ rows, Keyed m.primaryKey row)
    (hkey : '.' ∉ m.primaryKey.toList)
    (hjoined : m.primaryKey ∉ (nodes.filter (!·.separate)).map (·.name)) :
    having m (nodes.filter (!·.separate)) v.compact (rows.map nest) =
      (withKey m.primaryKey v rows).map nest := by
  rw [having, List.filter_map, withKey]
  refine congrArg (List.map nest) (List.filter_congr fun row hrow => ?_)
  obtain ⟨w, hw, -⟩ := (hrows row hrow).exists_key
  rw [Function.comp_apply, (hrows row hrow).identityOf_nest hkey hjoined hw, hw]
  rfl

/-- No association has the name of the key. -/
theorem primaryKey_notMem_names (hs : Schema.build c = .ok s) (hm : m ∈ s.models)
    (hnodes : Include.Forest s (fun _ _ => True) m nodes) :
    m.primaryKey ∉ nodes.map (·.name) := by
  intro hmem
  obtain ⟨n, hn, hname⟩ := List.mem_map.mp hmem
  obtain ⟨assoc, t, hf⟩ := (hnodes.rooted n hn).exists_follow
  rw [hname] at hf
  exact Schema.notMem_attributeNames_of_follow hs hm hf (Schema.sound_of_build hs m hm).primaryKey

/-- The rows with one value of the key are assembled to one object, which has this value. -/
theorem assemble_withKey {object : Document} (hnodes : Include.Forest s (fun _ _ => True) m nodes)
    (hnames : m.primaryKey ∉ nodes.map (·.name)) (hkey : '.' ∉ m.primaryKey.toList)
    (hrows : ∀ row ∈ rows, Keyed m.primaryKey row) (hv : v ∈ keysOf m.primaryKey rows)
    (hobject : mergedObject s nodes ((withKey m.primaryKey v rows).map nest) = .ok object) :
    object.get? m.primaryKey = some v ∧
      assemble s m nodes (withKey m.primaryKey v rows) = .ok [object] := by
  have hjoined : m.primaryKey ∉ (nodes.filter (!·.separate)).map (·.name) :=
    fun hmem => hnames ((List.filter_sublist.map _).mem hmem)
  obtain ⟨row, hrow, hv⟩ := mem_keysOf.mp hv
  have hmem : row ∈ withKey m.primaryKey v rows := mem_withKey.mpr ⟨hrow, hv⟩
  constructor
  · obtain ⟨first, rest, hfirst⟩ := List.exists_cons_of_ne_nil (List.ne_nil_of_mem hmem)
    have hfirst_mem : first ∈ withKey m.primaryKey v rows := hfirst ▸ List.mem_cons_self
    obtain ⟨hfirst_row, hfirst_key⟩ := mem_withKey.mp hfirst_mem
    rw [hfirst, List.map_cons] at hobject
    rw [get?_mergedObject hnodes.names hnames (nodup_nest first) hobject,
      (hrows first hfirst_row).lookup_nest hkey, hfirst_key]
  · have hne : (withKey m.primaryKey v rows).map nest ≠ [] :=
      List.ne_nil_of_mem (List.mem_map_of_mem hmem)
    have hid : ∀ row ∈ (withKey m.primaryKey v rows).map nest,
        identityOf m (nodes.filter (!·.separate)) row = v.compact := by
      intro row hrow
      obtain ⟨flat, hflat, rfl⟩ := List.mem_map.mp hrow
      obtain ⟨hflat, hv⟩ := mem_withKey.mp hflat
      exact (hrows flat hflat).identityOf_nest hkey hjoined hv
    rw [assemble_eq, mergeRows_of_identity hnodes.names hne hid, hobject, map_ok]

/-- With a key of one attribute, rows have the same value exactly if they agree on the whole key. -/
theorem exists_withKey_iff {r r' : Row} (hone : m.primaryKeys.length = 1)
    (hkeyed : Keyed m.primaryKey r) (hr : r ∈ rows) (hr' : r' ∈ rows) :
    (∃ v, r ∈ withKey m.primaryKey v rows ∧ r' ∈ withKey m.primaryKey v rows) ↔
      ∀ k ∈ m.primaryKeys, r.lookup k = r'.lookup k := by
  obtain ⟨k, hk⟩ := List.length_eq_one_iff.mp hone
  have hprimary : m.primaryKey = k := by
    rw [Model.primaryKey, hk]
    rfl
  obtain ⟨v, hv, -⟩ := hkeyed.exists_key
  rw [hk, List.forall_mem_singleton, ← hprimary]
  constructor
  · rintro ⟨w, hw, hw'⟩
    rw [(mem_withKey.mp hw).2, (mem_withKey.mp hw').2]
  · intro heq
    exact ⟨v, mem_withKey.mpr ⟨hr, hv⟩, mem_withKey.mpr ⟨hr', heq ▸ hv⟩⟩

/-- Rows whose first key attribute is present are assembled to one object for each value of it, in
order of the first row of each. The object has this value, and is assembled of the rows with it. If
there is no other attribute in the primary key, rows are taken together exactly if they agree on all
of it. -/
theorem assemble_by_key (hs : Schema.build c = .ok s) (hm : m ∈ s.models)
    (hnodes : Include.Forest s (fun _ _ => True) m nodes) (hkey : '.' ∉ m.primaryKey.toList)
    (hrows : ∀ row ∈ rows, Keyed m.primaryKey row) :
    ∃ object : Document → Document,
      assemble s m nodes rows = .ok ((keysOf m.primaryKey rows).map object) ∧
      (keysOf m.primaryKey rows).Nodup ∧
      (∀ v ∈ keysOf m.primaryKey rows, (object v).get? m.primaryKey = some v ∧
        assemble s m nodes (withKey m.primaryKey v rows) = .ok [object v]) ∧
      (m.primaryKeys.length = 1 → ∀ r ∈ rows, ∀ r' ∈ rows,
        (∃ v, r ∈ withKey m.primaryKey v rows ∧ r' ∈ withKey m.primaryKey v rows) ↔
          ∀ k ∈ m.primaryKeys, r.lookup k = r'.lookup k) := by
  have hnames := primaryKey_notMem_names hs hm hnodes
  have hjoined : m.primaryKey ∉ (nodes.filter (!·.separate)).map (·.name) :=
    fun hmem => hnames ((List.filter_sublist.map _).mem hmem)
  obtain ⟨object, hobject⟩ := Classical.skolem.mp fun v : Document =>
    exists_mergedObject hnodes ((withKey m.primaryKey v rows).map nest)
  refine ⟨object, ?_, Document.nodup_distinctByText _, fun v hv => ?_, fun hone r hr r' hr' => ?_⟩
  · rw [assemble_eq, mergeRows_eq hnodes.names, map_identityOf_nest hrows hkey hjoined,
      ← Document.map_compact_distinctByText, List.mapM_map]
    refine mapM_of_eq_ok fun v _ => ?_
    rw [Function.comp_apply, having_nest hrows hkey hjoined, hobject]
  · exact assemble_withKey hnodes hnames hkey hrows hv (hobject v)
  · exact exists_withKey_iff hone (hrows r hr) hr hr'

/-! ### Herds of animals, which have a key of two attributes -/

def herd : ModelConfig where
  name := "Herd"
  attributes := [{ name := "name", type := "TEXT", primaryKey := true }]
  associations := [{
    kind := .hasMany
    target := "Animal"
    declaredName := some "animals"
    foreignKey := "herd" }]

def animal : ModelConfig where
  name := "Animal"
  attributes := [{ name := "code", type := "TEXT", primaryKey := true },
    { name := "tag", type := "TEXT", primaryKey := true },
    { name := "herd", type := "TEXT" }]

def herds : Config where
  models := [herd, animal]

def herdsSchema : Schema := ⟨herds.models.map (·.resolve), herds.options⟩

theorem build_herds : Schema.build herds = .ok herdsSchema := by decide

def animals : Include where
  target := "Animal"
  name := "animals"
  kind := .hasMany
  attributes := ["code", "tag"]

theorem animals_forest :
    Include.Forest herdsSchema (fun _ _ => True) herd.resolve [animals] :=
  .singleton (.of_forest (t := animal.resolve) rfl rfl rfl nofun .nil)

/-- The northern herd has two animals, the southern one has none. -/
def herdRows : List Row := [
  [("name", .str "north"), ("animals.code", .str "a"), ("animals.tag", .str "x")],
  [("name", .str "south"), ("animals.code", .null), ("animals.tag", .null)],
  [("name", .str "north"), ("animals.code", .str "b"), ("animals.tag", .str "x")]]

theorem herdRows_keyed : ∀ row ∈ herdRows, Keyed herd.resolve.primaryKey row := by
  have hnone : ∀ {text : String} {fields : Fields}, some (Document.str text) ≠ some (.obj fields) :=
    nofun
  simp only [herdRows, List.forall_mem_cons]
  refine ⟨⟨by decide, ⟨_, rfl, nofun⟩, fun _ h => absurd h hnone⟩,
    ⟨by decide, ⟨_, rfl, nofun⟩, fun _ h => absurd h hnone⟩,
    ⟨by decide, ⟨_, rfl, nofun⟩, fun _ h => absurd h hnone⟩, nofun⟩

theorem herdRows_by_key : ∃ object : Document → Document,
    assemble herdsSchema herd.resolve [animals] herdRows =
      .ok ((keysOf herd.resolve.primaryKey herdRows).map object) ∧
    (keysOf herd.resolve.primaryKey herdRows).Nodup ∧
    (∀ v ∈ keysOf herd.resolve.primaryKey herdRows,
      (object v).get? herd.resolve.primaryKey = some v ∧
      assemble herdsSchema herd.resolve [animals]
        (withKey herd.resolve.primaryKey v herdRows) = .ok [object v]) ∧
    (herd.resolve.primaryKeys.length = 1 → ∀ r ∈ herdRows, ∀ r' ∈ herdRows,
      (∃ v, r ∈ withKey herd.resolve.primaryKey v herdRows ∧
        r' ∈ withKey herd.resolve.primaryKey v herdRows) ↔
        ∀ k ∈ herd.resolve.primaryKeys, r.lookup k = r'.lookup k) :=
  assemble_by_key build_herds List.mem_cons_self animals_forest (by decide) herdRows_keyed

/-- Two animals that differ in the second attribute of their key are taken for one. -/
theorem assemble_animals_lost : Schema.build herds = .ok herdsSchema ∧
    animal.resolve ∈ herdsSchema.models ∧ animal.resolve.primaryKeys = ["code", "tag"] ∧
    assemble herdsSchema animal.resolve []
      [[("code", .str "a"), ("tag", .str "x")], [("code", .str "a"), ("tag", .str "y")]] =
      .ok [.obj [("code", .str "a"), ("tag", .str "x")]] :=
  ⟨build_herds, List.mem_cons_of_mem _ List.mem_cons_self, rfl, rfl⟩

end Rows

end RelQuery

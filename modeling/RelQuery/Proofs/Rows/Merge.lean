import RelQuery.Proofs.Rows.Groups

/-!
# Merged rows

Merging gives one object for each identity. It is made of the columns of the first row and, for each
association that is shown, of what the joined rows of all members merge to.
-/

namespace RelQuery.Rows

variable {s : Schema} {Q : Model → Filter → Prop} {m t : Model} {assoc : Association} {n : Include}
  {ns joined nodes : List Include} {row : Row} {rows rs : List Row} {i k name : String}
  {g g' : Group} {under : String → List Row} {docs : List Document} {object : Document}

/-- The rows of `m` from those with their columns in nested objects. -/
def mergeRows (s : Schema) (m : Model) (nodes : List Include) (rows : List Row) :
    Except PlanError (List Document) :=
  (groups m (nodes.filter (!·.separate)) rows).mapM fun g => do
    return .obj (← fillAll s nodes g).own

theorem assemble_eq : assemble s m nodes rows = mergeRows s m nodes (rows.map nest) := rfl

/-- Rows as they stand under the name of an association: for many in an array, for one the first of
them, or `null` without any. -/
def gathered : AssociationKind → List Document → Document
  | .hasMany, docs | .belongsToMany, docs => .arr docs
  | .belongsTo, [] | .hasOne, [] => .null
  | .belongsTo, doc :: _ | .hasOne, doc :: _ => doc

theorem associationValue_eq {kind : AssociationKind} :
    associationValue kind docs = gathered kind docs := by
  cases kind <;> cases docs <;> rfl

/-- Whether the joined rows of a node are written out. -/
def isShown (n : Include) : Bool := !(n.separate || isPathOnly n)

theorem isPathOnly_eq : isPathOnly n = (n.attributes.isEmpty && allPathOnly n.includes) := by
  cases n
  rw [isPathOnly]

theorem allPathOnly_iff : allPathOnly ns = true ↔ ∀ n ∈ ns, isPathOnly n = true := by
  induction ns with
  | nil => exact iff_of_true (by rw [allPathOnly]) (List.forall_mem_nil _)
  | cons n ns ih => rw [allPathOnly, Bool.and_eq_true, ih, List.forall_mem_cons]

/-! ## Filling one group -/

theorem fill_of_hidden (h : isShown n = false) : fill s n g = .ok g := by
  have hskip : (n.separate || isPathOnly n) = true := by
    rw [isShown, Bool.not_eq_false'] at h
    exact h
  rw [isPathOnly_eq] at hskip
  cases n
  rw [fill]
  exact if_pos hskip

theorem fill_of_shown (h : isShown n = true) : fill s n g = do
    let t ← s.model n.target
    let rows ← mergeRows s t n.includes ((g.children.lookup n.name).getD [])
    return { g with
      own := g.own.insert n.name (gathered n.kind rows)
      children := g.children.filter (·.1 ≠ n.name) } := by
  have hkeep : ¬(n.separate || isPathOnly n) = true := by simpa [isShown] using h
  rw [isPathOnly_eq] at hkeep
  simp only [← associationValue_eq]
  cases n
  rw [fill]
  exact if_neg hkeep

/-- The field of a node, with what the rows under its name merge to. -/
def shownField (s : Schema) (under : String → List Row) (n : Include) :
    Except PlanError (String × Document) := do
  let t ← s.model n.target
  return (n.name, gathered n.kind (← mergeRows s t n.includes (under n.name)))

/-- Sets several fields. -/
def setAll (fields own : Fields) : Fields := fields.foldl (fun acc f => acc.insert f.1 f.2) own

theorem shownField_eq_ok {f : String × Document} : shownField s under n = .ok f ↔
    ∃ t docs, s.model n.target = .ok t ∧ mergeRows s t n.includes (under n.name) = .ok docs ∧
      f = (n.name, gathered n.kind docs) := by
  simp only [shownField, bind_eq_ok, pure_eq_ok]
  constructor
  · rintro ⟨t, ht, docs, hdocs, rfl⟩
    exact ⟨t, docs, ht, hdocs, rfl⟩
  · rintro ⟨t, docs, ht, hdocs, rfl⟩
    exact ⟨t, ht, docs, hdocs, rfl⟩

theorem names_of_shownFields {fields : Fields} (h : ns.mapM (shownField s under) = .ok fields) :
    fields.map (·.1) = ns.map (·.name) := by
  refine map_of_mapM h fun n _ f hf => ?_
  obtain ⟨t, docs, -, -, rfl⟩ := shownField_eq_ok.mp hf
  rfl

theorem lookup_setAll {fields own : Fields} (h : (fields.map (·.1)).Nodup) :
    (setAll fields own).lookup k = (fields.lookup k).or (own.lookup k) := by
  induction fields generalizing own with
  | nil => rfl
  | cons f fields ih =>
    rw [List.map_cons, List.nodup_cons] at h
    have hrest : (setAll (f :: fields) own).lookup k =
        (fields.lookup k).or ((own.insert f.1 f.2).lookup k) := ih h.2
    rw [hrest, Fields.lookup_insert, lookup_cons_if]
    by_cases hk : k = f.1
    · rw [if_pos hk, if_pos hk, lookup_eq_none_iff.mpr (hk ▸ h.1)]
      rfl
    · rw [if_neg hk, if_neg hk]

theorem mapM_shownField_congr (s : Schema) (under under' : String → List Row)
    (h : ∀ n ∈ ns, under n.name = under' n.name) :
    ns.mapM (shownField s under) = ns.mapM (shownField s under') := by
  refine mapM_congr fun n hn => ?_
  unfold shownField
  rw [h n hn]

/-- Filling sets one field for each node that is shown. -/
theorem own_fillAll (hnames : (nodes.map (·.name)).Nodup) :
    (·.own) <$> fillAll s nodes g = (setAll · g.own) <$>
      (nodes.filter isShown).mapM
        (shownField s fun name => (g.children.lookup name).getD []) := by
  induction nodes generalizing g with
  | nil => rfl
  | cons n nodes ih =>
    rw [List.map_cons, List.nodup_cons] at hnames
    rw [fillAll]
    cases hn : isShown n with
    | false => rw [fill_of_hidden hn, List.filter_cons_of_neg (by simp [hn]), ok_bind, ih hnames.2]
    | true =>
      rw [fill_of_shown hn, List.filter_cons_of_pos hn, List.mapM_cons, shownField]
      cases s.model n.target with
      | error e => rfl
      | ok t =>
        simp only [ok_bind]
        cases mergeRows s t n.includes ((g.children.lookup n.name).getD []) with
        | error e => rfl
        | ok rows =>
          -- The nodes that follow have other names, whose rows are still there.
          have hunder : ∀ c ∈ nodes.filter isShown,
              ((g.children.filter (·.1 ≠ n.name)).lookup c.name).getD [] =
                (g.children.lookup c.name).getD [] := by
            intro c hc
            have hne : c.name ≠ n.name := by
              intro heq
              exact hnames.1 (heq ▸ List.mem_map_of_mem (List.mem_filter.mp hc).1)
            rw [lookup_filter_ne hne]
          have hrest := ih (g := { g with
            own := g.own.insert n.name (gathered n.kind rows)
            children := g.children.filter (·.1 ≠ n.name) }) hnames.2
          have hfields := mapM_shownField_congr s
            (fun name => ((g.children.filter (·.1 ≠ n.name)).lookup name).getD [])
            (fun name => (g.children.lookup name).getD []) hunder
          rw [hfields] at hrest
          simp only [ok_bind, pure_bind]
          refine hrest.trans ?_
          cases (nodes.filter isShown).mapM
            (shownField s fun name => (g.children.lookup name).getD []) <;> rfl

/-! ## Merging -/

/-- The rows under a name that come out of some rows. -/
def rowsUnder (joined : List Include) (rows : List Row) (name : String) : List Row :=
  rows.flatMap fun row => ((childrenOf joined row).filter (·.1 = name)).map (·.2)

/-- What the rows of one identity merge to. -/
def mergedObject (s : Schema) (nodes : List Include) (rows : List Row) :
    Except PlanError Document := do
  let joined := nodes.filter (!·.separate)
  let fields ← (nodes.filter isShown).mapM (shownField s (rowsUnder joined rows))
  return .obj (setAll fields ((rows.head?.map (ownOf joined)).getD []))

theorem own_fillAll_groupOf (hnames : (nodes.map (·.name)).Nodup) :
    (do return Document.obj (← fillAll s nodes (groupOf joined i rows)).own) = do
      let fields ← (nodes.filter isShown).mapM (shownField s (rowsUnder joined rows))
      return .obj (setAll fields ((rows.head?.map (ownOf joined)).getD [])) := by
  have hunder : ∀ n ∈ nodes.filter isShown,
      ((groupOf joined i rows).children.lookup n.name).getD [] = rowsUnder joined rows n.name := by
    intro n _
    rw [groupOf, lookup_foldl_addChild, List.filter_flatMap, List.map_flatMap]
    rfl
  have hown := own_fillAll (s := s) (g := groupOf joined i rows) hnames
  have hfields := mapM_shownField_congr s
    (fun name => ((groupOf joined i rows).children.lookup name).getD []) _ hunder
  rw [hfields] at hown
  calc
    _ = Document.obj <$> (·.own) <$> fillAll s nodes (groupOf joined i rows) := by
      cases fillAll s nodes (groupOf joined i rows) <;> rfl
    _ = _ := by
      rw [hown]
      cases (nodes.filter isShown).mapM (shownField s (rowsUnder joined rows)) <;> rfl

/-- There is one object for each identity, in order of the first row of each. -/
theorem mergeRows_eq (hnames : (nodes.map (·.name)).Nodup) : mergeRows s m nodes rows =
    (rows.map (identityOf m (nodes.filter (!·.separate)))).eraseDups.mapM fun i =>
      mergedObject s nodes (having m (nodes.filter (!·.separate)) i rows) := by
  rw [mergeRows, groups_eq, List.mapM_map]
  exact mapM_congr fun i _ => own_fillAll_groupOf hnames

theorem mergedObject_eq_ok : mergedObject s nodes rows = .ok object ↔
    ∃ fields, (nodes.filter isShown).mapM
        (shownField s (rowsUnder (nodes.filter (!·.separate)) rows)) = .ok fields ∧
      object = .obj (setAll fields
        ((rows.head?.map (ownOf (nodes.filter (!·.separate)))).getD [])) := by
  simp only [mergedObject, bind_eq_ok, pure_eq_ok]
  constructor
  · rintro ⟨fields, hfields, rfl⟩
    exact ⟨fields, hfields, rfl⟩
  · rintro ⟨fields, hfields, rfl⟩
    exact ⟨fields, hfields, rfl⟩

/-- Columns of the first row that have not the name of an association are kept. -/
theorem get?_mergedObject (hnames : (nodes.map (·.name)).Nodup) (hk : k ∉ nodes.map (·.name))
    (hrow : (row.map (·.1)).Nodup) (h : mergedObject s nodes (row :: rows) = .ok object) :
    object.get? k = row.lookup k := by
  obtain ⟨fields, hfields, rfl⟩ := mergedObject_eq_ok.mp h
  have hfieldNames := names_of_shownFields hfields
  have hsub : ∀ p : Include → Bool, ((nodes.filter p).map (·.name)).Sublist (nodes.map (·.name)) :=
    fun p => List.filter_sublist.map _
  have hjoined : k ∉ (nodes.filter (!·.separate)).map (·.name) := fun hmem => hk ((hsub _).mem hmem)
  have hother : k ∉ fields.map (·.1) := by
    rw [hfieldNames]
    exact fun hmem => hk ((hsub _).mem hmem)
  have hnodup : (fields.map (·.1)).Nodup := by
    rw [hfieldNames]
    exact (hsub _).nodup hnames
  change (setAll fields (ownOf _ row)).lookup k = _
  rw [lookup_setAll hnodup, lookup_eq_none_iff.mpr hother, lookup_ownOf hrow, if_neg hjoined]
  rfl

/-- Rows of one identity merge to one object. -/
theorem mergeRows_of_identity (hnames : (nodes.map (·.name)).Nodup) (hne : rows ≠ [])
    (h : ∀ row ∈ rows, identityOf m (nodes.filter (!·.separate)) row = i) :
    mergeRows s m nodes rows = ([·]) <$> mergedObject s nodes rows := by
  have hids : (rows.map (identityOf m (nodes.filter (!·.separate)))).eraseDups = [i] := by
    refine eraseDups_replicate (by simpa using hne) fun j hj => ?_
    obtain ⟨row, hrow, rfl⟩ := List.mem_map.mp hj
    exact h row hrow
  have hall : having m (nodes.filter (!·.separate)) i rows = rows :=
    List.filter_eq_self.mpr fun row hrow => decide_eq_true (h row hrow)
  rw [mergeRows_eq hnames, hids, List.mapM_cons, hall]
  cases mergedObject s nodes rows <;> rfl

/-! ## Success -/

theorem exists_mergeRows_of (hnames : (nodes.map (·.name)).Nodup)
    (H : ∀ n ∈ nodes, ∀ under, ∃ f, shownField s under n = .ok f) (m : Model) (rows : List Row) :
    ∃ docs, mergeRows s m nodes rows = .ok docs := by
  rw [mergeRows_eq hnames]
  refine exists_mapM fun i _ => ?_
  obtain ⟨fields, hfields⟩ := exists_mapM fun n (hn : n ∈ nodes.filter isShown) =>
    H n (List.mem_filter.mp hn).1 (rowsUnder (nodes.filter (!·.separate))
      (having m (nodes.filter (!·.separate)) i rows))
  rw [mergedObject, hfields]
  exact ⟨_, rfl⟩

theorem exists_shownField (h : n.Rooted s Q m) (under : String → List Row) :
    ∃ f, shownField s under n = .ok f := by
  induction h generalizing under with
  | node hf ht _ _ hnames _ ih =>
    obtain ⟨docs, hdocs⟩ := exists_mergeRows_of hnames ih _ (under _)
    rw [shownField, ht, Schema.model_name (Schema.follow_eq_ok.mp hf).2, ok_bind, hdocs]
    exact ⟨_, rfl⟩

theorem exists_mergedObject (h : Include.Forest s Q m nodes) (rows : List Row) :
    ∃ object, mergedObject s nodes rows = .ok object := by
  obtain ⟨fields, hfields⟩ := exists_mapM fun n (hn : n ∈ nodes.filter isShown) =>
    exists_shownField (h.rooted n (List.mem_filter.mp hn).1)
      (rowsUnder (nodes.filter (!·.separate)) rows)
  exact ⟨_, mergedObject_eq_ok.mpr ⟨fields, hfields, rfl⟩⟩

end RelQuery.Rows

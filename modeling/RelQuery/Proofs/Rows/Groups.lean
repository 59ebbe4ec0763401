import RelQuery.Proofs.Document.Distinct
import RelQuery.Proofs.Except
import RelQuery.Proofs.Include.Forest
import RelQuery.Proofs.Rows.Nest

/-!
# Groups of rows

Rows with one identity form one group, in the order of the first row of each. What is under the base
row of a group comes from the joined rows of its members, association by association.
-/

namespace RelQuery.Rows

variable {s : Schema} {m t : Model} {n : Include} {ns joined nodes : List Include}
  {row : Row} {rows rs : List Row} {i k name : String} {g g' : Group}

/-! ## Joined rows of one row -/

/-- The joined row under a name, unless an outer join has found none. -/
def childUnder (name : String) (row : Row) : List Row :=
  match row.lookup name with
  | some (.obj fields) => if allBlank fields then [] else [fields]
  | _ => []

/-- The columns of a row itself. -/
def ownOf (joined : List Include) (row : Row) : Row := (takeJoined joined row).1

/-- The joined rows of a row, with the names of their associations. -/
def childrenOf (joined : List Include) (row : Row) : List (String × Row) :=
  (takeJoined joined row).2

/-- The text by which a row is recognised. -/
def identityOf (m : Model) (joined : List Include) (row : Row) : String :=
  identity m (ownOf joined row)

theorem childUnder_congr {row' : Row} (h : row.lookup name = row'.lookup name) :
    childUnder name row = childUnder name row' := by
  unfold childUnder
  rw [h]

theorem takeJoined_cons : takeJoined (n :: ns) row =
    (ownOf ns (row.erase n.name),
      (childUnder n.name row).map (n.name, ·) ++ childrenOf ns (row.erase n.name)) := by
  unfold takeJoined childUnder ownOf childrenOf
  dsimp only
  cases row.lookup n.name with
  | none => rfl
  | some d =>
    cases d with
    | obj fields =>
      dsimp only
      split <;> rfl
    | _ => rfl

/-- The names of joined associations are taken out of a row, and nothing else is. -/
theorem lookup_ownOf (h : (row.map (·.1)).Nodup) : (ownOf joined row).lookup k =
    if k ∈ joined.map (·.name) then none else row.lookup k := by
  induction joined generalizing row with
  | nil => rfl
  | cons n ns ih =>
    rw [ownOf, takeJoined_cons]
    change (ownOf ns (row.erase n.name)).lookup k = _
    rw [ih (Fields.nodup_erase h), Fields.lookup_erase h, List.map_cons]
    by_cases hk : k = n.name
    · simp [hk]
    · simp [hk]

/-- What is under other names is not under this one. -/
theorem filter_childrenOf_of_notMem (h : name ∉ joined.map (·.name)) :
    (childrenOf joined row).filter (·.1 = name) = [] := by
  induction joined generalizing row with
  | nil => rfl
  | cons n ns ih =>
    rw [List.map_cons, List.mem_cons, not_or] at h
    rw [childrenOf, takeJoined_cons, List.filter_append, ih h.2, List.append_nil]
    refine List.filter_eq_nil_iff.mpr fun c hc => ?_
    obtain ⟨child, -, rfl⟩ := List.mem_map.mp hc
    simpa using Ne.symm h.1

/-- The joined rows of a row under one name. -/
theorem filter_childrenOf (h : (row.map (·.1)).Nodup) (hnames : (joined.map (·.name)).Nodup)
    (hname : name ∈ joined.map (·.name)) :
    ((childrenOf joined row).filter (·.1 = name)).map (·.2) = childUnder name row := by
  induction joined generalizing row with
  | nil => cases hname
  | cons n ns ih =>
    rw [List.map_cons, List.nodup_cons] at hnames
    rw [childrenOf, takeJoined_cons, List.filter_append, List.map_append]
    by_cases hn : n.name = name
    · have hrest : (childrenOf ns (row.erase n.name)).filter (·.1 = name) = [] :=
        filter_childrenOf_of_notMem (hn ▸ hnames.1)
      rw [hrest, List.map_nil, List.append_nil, hn, List.filter_eq_self.mpr, List.map_map]
      · exact List.map_id _
      · intro c hc
        obtain ⟨child, -, rfl⟩ := List.mem_map.mp hc
        simp
    · have hfirst : ((childUnder n.name row).map (n.name, ·)).filter (·.1 = name) = [] := by
        refine List.filter_eq_nil_iff.mpr fun c hc => ?_
        obtain ⟨child, -, rfl⟩ := List.mem_map.mp hc
        simpa using hn
      have hmem : name ∈ ns.map (·.name) :=
        (List.mem_cons.mp hname).resolve_left (Ne.symm hn)
      rw [hfirst, List.map_nil, List.nil_append, ih (Fields.nodup_erase h) hnames.2 hmem]
      apply childUnder_congr
      rw [Fields.lookup_erase h, if_neg (Ne.symm hn)]

/-! ## Collecting joined rows -/

theorem lookup_addChild {children : List (String × List Row)} {child : String × Row} :
    ((addChild children child).lookup name).getD [] =
      (children.lookup name).getD [] ++ if child.1 = name then [child.2] else [] := by
  induction children with
  | nil =>
    rw [addChild, lookup_cons_if]
    by_cases h : name = child.1
    · simp [h]
    · simp [h, Ne.symm h]
  | cons c cs ih =>
    obtain ⟨k, rows⟩ := c
    rw [addChild]
    split
    · rename_i hk
      dsimp only at hk
      subst hk
      rw [lookup_cons_if, lookup_cons_if]
      by_cases h : name = child.1
      · simp [h]
      · simp [h, Ne.symm h]
    · rename_i hk
      dsimp only at hk
      rw [lookup_cons_if, lookup_cons_if]
      by_cases h : name = k
      · have hne : child.1 ≠ name := fun heq => hk (h.symm.trans heq.symm)
        simp [h, Ne.symm hk]
      · rw [if_neg h, if_neg h, ih]

/-- Collecting keeps all rows under a name, in order. -/
theorem lookup_foldl_addChild {children : List (String × List Row)} (cs : List (String × Row)) :
    ((cs.foldl addChild children).lookup name).getD [] =
      (children.lookup name).getD [] ++ (cs.filter (·.1 = name)).map (·.2) := by
  induction cs generalizing children with
  | nil => exact (List.append_nil _).symm
  | cons c cs ih =>
    rw [List.foldl_cons, ih, lookup_addChild, List.append_assoc]
    by_cases h : c.1 = name
    · simp [h]
    · simp [h]

/-! ## Groups -/

/-- The group that some rows form. -/
def groupOf (joined : List Include) (i : String) (rs : List Row) : Group :=
  ⟨i, (rs.head?.map (ownOf joined)).getD [], (rs.flatMap (childrenOf joined)).foldl addChild []⟩

/-- The rows of one identity. -/
def having (m : Model) (joined : List Include) (i : String) (rows : List Row) : List Row :=
  rows.filter (identityOf m joined · = i)

theorem addToGroup_of_notMem {gs : List Group} {own : Row} {children : List (String × Row)}
    (h : ∀ g ∈ gs, g.identity ≠ i) :
    addToGroup i own children gs = gs ++ [⟨i, own, children.foldl addChild []⟩] := by
  induction gs with
  | nil => rfl
  | cons g gs ih =>
    rw [List.forall_mem_cons] at h
    rw [addToGroup, if_neg h.1, ih h.2, List.cons_append]

theorem addToGroup_map {ids : List String} {G : String → Group} {own : Row}
    {children : List (String × Row)} (hG : ∀ j, (G j).identity = j) (hnodup : ids.Nodup)
    (h : i ∈ ids) : addToGroup i own children (ids.map G) = ids.map fun j =>
      if j = i then { G i with children := children.foldl addChild (G i).children } else G j := by
  induction ids with
  | nil => cases h
  | cons j ids ih =>
    rw [List.nodup_cons] at hnodup
    rw [List.map_cons, List.map_cons, addToGroup]
    by_cases hj : j = i
    · subst hj
      rw [if_pos (hG j), if_pos rfl]
      refine congrArg (List.cons _) (List.map_congr_left fun l hl => ?_)
      have hne : l ≠ j := by
        rintro rfl
        exact hnodup.1 hl
      rw [if_neg hne]
    · rw [if_neg (by rwa [hG]), if_neg hj, ih hnodup.2 ((List.mem_cons.mp h).resolve_left (Ne.symm hj))]

/-- A further row joins the group of its identity. -/
theorem having_concat : having m joined i (rows ++ [row]) =
    if i = identityOf m joined row then having m joined i rows ++ [row]
    else having m joined i rows := by
  rw [having, List.filter_append, ← having]
  by_cases h : i = identityOf m joined row
  · rw [if_pos h, List.filter_cons_of_pos (by simp [h]), List.filter_nil]
  · rw [if_neg h, List.filter_cons_of_neg (by simpa using Ne.symm h), List.filter_nil,
      List.append_nil]

theorem having_eq_nil_iff :
    having m joined i rows = [] ↔ i ∉ rows.map (identityOf m joined) := by
  rw [having, List.filter_eq_nil_iff, List.mem_map, not_exists]
  refine forall_congr' fun row => ?_
  rw [decide_eq_true_eq, not_and]

/-- A row that joins a group adds what is under it. -/
theorem groupOf_concat (h : rs ≠ []) : groupOf joined i (rs ++ [row]) =
    { groupOf joined i rs with
      children := (childrenOf joined row).foldl addChild (groupOf joined i rs).children } := by
  obtain ⟨r, rs, rfl⟩ := List.exists_cons_of_ne_nil h
  rw [groupOf, groupOf, List.flatMap_append, List.foldl_append, List.flatMap_singleton]
  rfl

theorem groupOf_singleton : groupOf joined i [row] =
    ⟨i, ownOf joined row, (childrenOf joined row).foldl addChild []⟩ := by
  rw [groupOf, List.flatMap_singleton]
  rfl

theorem groups_concat : groups m joined (rows ++ [row]) = addToGroup (identityOf m joined row)
    (ownOf joined row) (childrenOf joined row) (groups m joined rows) := by
  rw [groups, List.foldl_append]
  rfl

/-- There is one group for each identity, in order of the first row of each, and it is made of the
rows of this identity. -/
theorem groups_eq (m : Model) (joined : List Include) (rows : List Row) : groups m joined rows =
    (rows.map (identityOf m joined)).eraseDups.map fun i =>
      groupOf joined i (having m joined i rows) := by
  induction rows using List.reverseRecOn with
  | nil => rfl
  | append_singleton rows row ih =>
    have hnodup := nodup_eraseDups (rows.map (identityOf m joined))
    rw [groups_concat, ih, List.map_append, List.map_singleton, eraseDups_concat]
    by_cases hmem : identityOf m joined row ∈ rows.map (identityOf m joined)
    · rw [if_pos hmem, addToGroup_map (fun _ => rfl) hnodup (List.mem_eraseDups.mpr hmem)]
      apply List.map_congr_left
      intro j _
      rw [having_concat]
      split
      · rename_i hj
        rw [hj, groupOf_concat (mt having_eq_nil_iff.mp (not_not_intro hmem))]
      · rfl
    · rw [if_neg hmem, List.map_append, List.map_singleton, having_concat, if_pos rfl,
        having_eq_nil_iff.mpr hmem, List.nil_append, groupOf_singleton, addToGroup_of_notMem]
      · congr 1
        apply List.map_congr_left
        intro j hj
        rw [having_concat, if_neg]
        rintro rfl
        exact hmem (List.mem_eraseDups.mp hj)
      · intro g hg
        obtain ⟨j, hj, rfl⟩ := List.mem_map.mp hg
        rintro rfl
        exact hmem (List.mem_eraseDups.mp hj)

end RelQuery.Rows

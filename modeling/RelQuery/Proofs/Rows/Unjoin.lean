import RelQuery.Proofs.Document.Compact
import RelQuery.Proofs.Rows.Join
import RelQuery.Proofs.Rows.Repeats

/-!
# Undoing a join

Assembling the flat rows of a join gives the nested rows that were joined, each once and in order.
Rows of one base row form one group, and under every association they are the rows joined there,
repeated; so the argument goes down the tree of nodes.
-/

namespace RelQuery.Rows

mutual

/-- The object for a row of a node, with the rows below it. -/
def documentOf : Include → Nested → Document
  | ⟨_, _, _, attributes, _, includes, _, _, _, _⟩, r =>
    .obj (attributes.map (fun a => (a, r.value a)) ++ fieldsBelow includes r)

/-- The fields for the nodes under a row: an array for many, an object or `null` for one, and none
for a node that serves a path only. -/
def fieldsBelow : List Include → Nested → Fields
  | [], _ => []
  | n :: ns, r =>
    (if isPathOnly n then []
      else [(n.name, gathered n.kind ((r.joined n.name).map (documentOf n)))]) ++
      fieldsBelow ns r

end

/-- The object for a base row. -/
def document (attributes : List String) (nodes : List Include) (r : Nested) : Document :=
  .obj (attributes.map (fun a => (a, r.value a)) ++ fieldsBelow nodes r)

/-- Rows that carry a key, which is not null and differs from row to row. -/
structure Identified (key : String) (attributes : List String) (rows : List Nested) : Prop where
  selected : key ∈ attributes
  notNull : ∀ r ∈ rows, r.value key ≠ .null
  distinct : (rows.map (·.value key)).Nodup

/-- A value that says nothing: `null`, an array without items, or an object of such values. -/
inductive Blank : Document → Prop
  | null : Blank .null
  | array : Blank (.arr [])
  | object {fields : Fields} : (∀ f ∈ fields, Blank f.2) → Blank (.obj fields)

/-- A joined row that can be told from none: it has a column that says something, or a row below it
that is shown. -/
def Matched (n : Include) (r : Nested) : Prop :=
  (∃ a ∈ n.attributes, ¬Blank (r.value a)) ∨
    ∃ b ∈ n.includes, isPathOnly b = false ∧ r.joined b.name ≠ []

/-- What is joined to a row for a node: for many, rows that are told apart by their key, for one, a
row at most; and the same below. Nothing is asked of rows that serve a path only. -/
inductive Joinable (s : Schema) : Include → Nested → Prop
  | hidden {n : Include} {r : Nested} : isPathOnly n = true → Joinable s n r
  | many {n : Include} {r : Nested} {t : Model} :
      n.kind.isMany = true → s.model n.target = .ok t →
      Identified t.primaryKey n.attributes (r.joined n.name) →
      (∀ child ∈ r.joined n.name, Matched n child) →
      (∀ child ∈ r.joined n.name, ∀ b ∈ n.includes, Joinable s b child) → Joinable s n r
  | one {n : Include} {r : Nested} :
      n.kind.isMany = false → (r.joined n.name).length ≤ 1 →
      (∀ child ∈ r.joined n.name, Matched n child) →
      (∀ child ∈ r.joined n.name, ∀ b ∈ n.includes, Joinable s b child) → Joinable s n r

variable {c : Config} {s : Schema} {m t : Model} {n : Include} {nodes : List Include}
  {attributes : List String} {value : String → Document} {child : Option Chosen} {r : Nested}
  {rs : List Nested} {below : String → Option Chosen} {fields own : Fields}

/-! ## Choices -/

theorem choices_of_nil (h : r.joined n.name = []) : choices n r = [none] := by
  cases n
  dsimp only at h
  rw [choices, h]

theorem choices_of_ne (h : r.joined n.name ≠ []) : choices n r =
    (r.joined n.name).flatMap fun child => (choicesAll n.includes child).map fun below =>
      some (.row child.value below) := by
  obtain ⟨first, rest, hrows⟩ := List.exists_cons_of_ne_nil h
  cases n
  dsimp only at hrows
  rw [choices, hrows]

theorem choicesAll_ne_nil_of (H : ∀ n ∈ nodes, choices n r ≠ []) : choicesAll nodes r ≠ [] := by
  induction nodes with
  | nil =>
    rw [choicesAll]
    exact List.cons_ne_nil _ _
  | cons n nodes ih =>
    rw [List.forall_mem_cons] at H
    obtain ⟨child, hchild⟩ := List.exists_mem_of_ne_nil _ H.1
    obtain ⟨below, hbelow⟩ := List.exists_mem_of_ne_nil _ (ih H.2)
    rw [choicesAll]
    exact List.ne_nil_of_mem (List.mem_flatMap.mpr ⟨child, hchild, List.mem_map_of_mem hbelow⟩)

theorem choices_ne_nil (n : Include) (r : Nested) : choices n r ≠ [] := by
  induction n generalizing r with
  | node n ih =>
    by_cases h : r.joined n.name = []
    · rw [choices_of_nil h]
      exact List.cons_ne_nil _ _
    · rw [choices_of_ne h]
      obtain ⟨child, hchild⟩ := List.exists_mem_of_ne_nil _ h
      obtain ⟨below, hbelow⟩ := List.exists_mem_of_ne_nil _
        (choicesAll_ne_nil_of fun b hb => ih b hb child)
      exact List.ne_nil_of_mem (List.mem_flatMap.mpr ⟨child, hchild, List.mem_map_of_mem hbelow⟩)

theorem choicesAll_ne_nil : choicesAll nodes r ≠ [] :=
  choicesAll_ne_nil_of fun n _ => choices_ne_nil n r

/-- What is chosen for one node among others is what can be chosen for it, repeated. -/
theorem repeats_choices (hnames : (nodes.map (·.name)).Nodup) (hn : n ∈ nodes) :
    Repeats ((choicesAll nodes r).map (· n.name)) (choices n r) := by
  induction nodes with
  | nil => cases hn
  | cons k nodes ih =>
    rw [List.map_cons, List.nodup_cons] at hnames
    rw [choicesAll, List.map_flatMap]
    rcases List.mem_cons.mp hn with rfl | hn
    · have hsingle : choices n r = (choices n r).flatMap ([·]) := by rw [List.flatMap_singleton']
      nth_rewrite 2 [hsingle]
      refine Repeats.flatMap_congr fun child _ => ?_
      rw [List.map_map, List.map_eq_flatMap]
      have hconst : (fun below : String → Option Chosen =>
          [((· n.name) ∘ fun below name => if name = n.name then child else below name) below]) =
          fun _ => [child] := by
        funext below
        exact congrArg ([·]) (if_pos rfl)
      rw [hconst]
      exact Repeats.flatMap_const choicesAll_ne_nil [child]
    · have hne : n.name ≠ k.name := by
        intro heq
        exact hnames.1 (heq ▸ List.mem_map_of_mem hn)
      have hrest : (fun child : Option Chosen => ((choicesAll nodes r).map fun below name =>
          if name = k.name then child else below name).map (· n.name)) =
          fun _ => (choicesAll nodes r).map (· n.name) := by
        funext child
        rw [List.map_map]
        exact List.map_congr_left fun below _ => if_neg hne
      rw [hrest]
      exact (Repeats.flatMap_const (choices_ne_nil k r) _).trans (ih hnames.2 hn)

theorem mem_choices (hnames : (nodes.map (·.name)).Nodup) (hn : n ∈ nodes)
    (h : below ∈ choicesAll nodes r) : below n.name ∈ choices n r :=
  (repeats_choices hnames hn).mem_iff.mp (List.mem_map.mpr ⟨below, h, rfl⟩)

/-! ## Rows that say nothing -/

theorem allBlank_iff : allBlank fields = true ↔ ∀ f ∈ fields, isBlank f.2 = true := by
  induction fields with
  | nil => exact iff_of_true (by rw [allBlank]) (List.forall_mem_nil _)
  | cons f fields ih => rw [allBlank, Bool.and_eq_true, ih, List.forall_mem_cons]

theorem isBlank_iff {v : Document} : isBlank v = true ↔ Blank v := by
  constructor
  · intro h
    induction v with
    | null => exact .null
    | arr items =>
      rw [isBlank, List.isEmpty_iff] at h
      exact h ▸ .array
    | obj fields ih =>
      rw [isBlank, allBlank_iff] at h
      exact .object fun f hf => ih f hf (h f hf)
    | _ => cases h
  · intro h
    induction h with
    | null => rw [isBlank]
    | array => rw [isBlank, List.isEmpty_nil]
    | object _ ih =>
      rw [isBlank, allBlank_iff]
      exact ih

theorem mem_nestedAll {f : String × Document} : f ∈ nestedAll nodes below ↔
    ∃ n ∈ nodes, isPathOnly n = false ∧ f = (n.name, .obj (nested n (below n.name))) := by
  induction nodes with
  | nil =>
    rw [nestedAll]
    constructor
    · intro h
      cases h
    · rintro ⟨n, hn, -⟩
      cases hn
  | cons n nodes ih =>
    rw [nestedAll, List.mem_append, ih, List.exists_mem_cons_iff]
    refine or_congr_left ?_
    cases isPathOnly n <;> simp

/-- Where nothing is chosen, all columns are null. -/
theorem allBlank_nested_none (n : Include) : allBlank (nested n none) = true := by
  induction n with
  | node n ih =>
    rw [nested_eq, allBlank_iff, List.forall_mem_append]
    constructor
    · intro f hf
      obtain ⟨a, -, rfl⟩ := List.mem_map.mp hf
      exact isBlank.eq_1
    · intro f hf
      obtain ⟨b, hb, -, rfl⟩ := mem_nestedAll.mp hf
      rw [isBlank]
      exact ih b hb

/-- A row that can be told from none is told from none in every choice. -/
theorem JoinTree.allBlank_nested (h : JoinTree s m n) (hn : isPathOnly n = false)
    (hr : Joinable s n r) (hrows : r.joined n.name ≠ []) (hchild : child ∈ choices n r) :
    allBlank (nested n child) = false := by
  induction h generalizing r child with
  | @node m t assoc n _ _ _ _ _ _ hnames _ ih =>
    have hjoined : ∀ row ∈ r.joined n.name, Matched n row ∧ ∀ b ∈ n.includes, Joinable s b row := by
      cases hr with
      | hidden hpath => cases hn.symm.trans hpath
      | many _ _ _ hmatched hbelow => exact fun row hrow => ⟨hmatched row hrow, hbelow row hrow⟩
      | one _ _ hmatched hbelow => exact fun row hrow => ⟨hmatched row hrow, hbelow row hrow⟩
    rw [choices_of_ne hrows] at hchild
    obtain ⟨row, hrow, hchild⟩ := List.mem_flatMap.mp hchild
    obtain ⟨below, hbelow, rfl⟩ := List.mem_map.mp hchild
    obtain ⟨hmatched, hrest⟩ := hjoined row hrow
    rw [nested_eq, ← Bool.not_eq_true, allBlank_iff, List.forall_mem_append]
    rintro ⟨hown, hunder⟩
    rcases hmatched with ⟨a, ha, hvalue⟩ | ⟨b, hb, hshown, hne⟩
    · exact hvalue (isBlank_iff.mp (hown (a, row.value a) (List.mem_map_of_mem ha)))
    · have hblank := hunder (b.name, .obj (nested b (below b.name)))
        (mem_nestedAll.mpr ⟨b, hb, hshown, rfl⟩)
      rw [isBlank] at hblank
      cases (ih b hb hshown (hrest b hb) hne (mem_choices hnames hb hbelow)).symm.trans hblank

/-! ## Groups of a join -/

/-- The nested rows that a join gives for some rows. -/
def nestedRows (attributes : List String) (nodes : List Include) (rs : List Nested) : List Row :=
  rs.flatMap fun r => (choicesAll nodes r).map (nestedRow attributes nodes r.value)

theorem filter_joined (hnodes : JoinForest s m nodes) : nodes.filter (!·.separate) = nodes := by
  refine List.filter_eq_self.mpr fun n hn => ?_
  rw [(hnodes.trees n hn).separate]
  rfl

theorem nodup_nestedRow (hs : Schema.build c = .ok s) (hm : m ∈ s.models)
    (hnodes : JoinForest s m nodes) (hselected : Selected m attributes) :
    ((nestedRow attributes nodes value below).map (·.1)).Nodup := by
  rw [← nest_joinRow hs hm hnodes hselected]
  exact nodup_nest _

/-- What is left of fields when those of the associations are taken out. -/
theorem ownOf_append {own rest : Fields} (hrest : (rest.map (·.1)).Nodup)
    (hsub : ∀ name ∈ rest.map (·.1), name ∈ nodes.map (·.name))
    (hown : ∀ n ∈ nodes, n.name ∉ own.map (·.1)) : ownOf nodes (own ++ rest) = own := by
  induction nodes generalizing rest with
  | nil =>
    have hnil : rest = [] := by
      refine List.eq_nil_iff_forall_not_mem.mpr fun f hf => ?_
      cases hsub f.1 (List.mem_map_of_mem hf)
    rw [hnil, List.append_nil]
    rfl
  | cons n nodes ih =>
    rw [List.forall_mem_cons] at hown
    rw [ownOf, takeJoined_cons, Fields.erase_append hown.1]
    refine ih (Fields.nodup_erase hrest) (fun name hname => ?_) hown.2
    obtain ⟨hname, hne⟩ := (Fields.mem_keys_erase hrest).mp hname
    exact (List.mem_cons.mp (hsub name hname)).resolve_left hne

theorem ownOf_nestedRow (hs : Schema.build c = .ok s) (hm : m ∈ s.models)
    (hnodes : JoinForest s m nodes) (hselected : Selected m attributes) :
    ownOf nodes (nestedRow attributes nodes value below) = attributes.map fun a => (a, value a) := by
  have hnodup : ((nestedRow attributes nodes value below).map (·.1)).Nodup :=
    nodup_nestedRow hs hm hnodes hselected
  rw [nestedRow, List.map_append, List.nodup_append] at hnodup
  refine ownOf_append hnodup.2.1 (fun name hname => ?_) fun n hn => ?_
  · obtain ⟨f, hf, rfl⟩ := List.mem_map.mp hname
    exact names_nestedAll_subset f hf
  · rw [names_columns]
    exact hnodes.notMem_attributes hs hm hselected hn

/-- The nested row that a choice stands for. -/
def chosenRow (n : Include) (child : Option Chosen) : List Row :=
  match child with
  | none => []
  | some child => [nested n (some child)]

/-- Under a node that is shown, a row of the join has what was chosen for the node. -/
theorem childUnder_nestedRow (hs : Schema.build c = .ok s) (hm : m ∈ s.models)
    (hnodes : JoinForest s m nodes) (hselected : Selected m attributes) (hn : n ∈ nodes)
    (hshown : isPathOnly n = false) (hr : Joinable s n r) (hbelow : below ∈ choicesAll nodes r) :
    childUnder n.name (nestedRow attributes nodes value below) = chosenRow n (below n.name) := by
  have hlookup : (nestedRow attributes nodes value below).lookup n.name =
      some (.obj (nested n (below n.name))) := by
    refine lookup_of_mem (nodup_nestedRow hs hm hnodes hselected) ?_
    exact List.mem_append_right _ (mem_nestedAll.mpr ⟨n, hn, hshown, rfl⟩)
  have hchoice := mem_choices hnodes.names hn hbelow
  rw [childUnder, hlookup]
  dsimp only
  by_cases hrows : r.joined n.name = []
  · rw [choices_of_nil hrows, List.mem_singleton] at hchoice
    rw [hchoice, if_pos (allBlank_nested_none n)]
    rfl
  · have hsome : ∃ child, below n.name = some child := by
      rw [choices_of_ne hrows] at hchoice
      obtain ⟨row, -, hchoice⟩ := List.mem_flatMap.mp hchoice
      obtain ⟨under, -, heq⟩ := List.mem_map.mp hchoice
      exact ⟨_, heq.symm⟩
    have hshows := (hnodes.trees n hn).allBlank_nested hshown hr hrows hchoice
    obtain ⟨child, hchild⟩ := hsome
    rw [hchild] at hshows ⊢
    rw [hshows]
    rfl

theorem flatMap_chosenRow : (choices n r).flatMap (chosenRow n) =
    nestedRows n.attributes n.includes (r.joined n.name) := by
  by_cases hrows : r.joined n.name = []
  · rw [choices_of_nil hrows, hrows]
    rfl
  · rw [choices_of_ne hrows, List.flatMap_assoc, nestedRows]
    refine congrArg (fun f => List.flatMap f _) (funext fun row => ?_)
    rw [List.flatMap_map, List.map_eq_flatMap]
    refine congrArg (fun f => List.flatMap f _) (funext fun under => ?_)
    rw [chosenRow, nested_eq]
    rfl

/-- The rows under a node in the rows of one base row are those that were joined there, repeated. -/
theorem repeats_rowsUnder (hs : Schema.build c = .ok s) (hm : m ∈ s.models)
    (hnodes : JoinForest s m nodes) (hselected : Selected m attributes) (hn : n ∈ nodes)
    (hshown : isPathOnly n = false) (hr : Joinable s n r) :
    Repeats (rowsUnder nodes ((choicesAll nodes r).map (nestedRow attributes nodes value)) n.name)
      (nestedRows n.attributes n.includes (r.joined n.name)) := by
  have hunder : rowsUnder nodes ((choicesAll nodes r).map (nestedRow attributes nodes value))
      n.name = ((choicesAll nodes r).map (· n.name)).flatMap (chosenRow n) := by
    rw [rowsUnder, List.flatMap_map, List.flatMap_map]
    refine List.flatMap_congr fun below hbelow => ?_
    rw [filter_childrenOf (nodup_nestedRow hs hm hnodes hselected) hnodes.names
      (List.mem_map_of_mem hn)]
    exact childUnder_nestedRow hs hm hnodes hselected hn hshown hr hbelow
  rw [hunder, ← flatMap_chosenRow]
  exact (repeats_choices hnodes.names hn).flatMap _

/-! ## Restoring rows -/

theorem setAll_of_fresh (h : ((own ++ fields).map (·.1)).Nodup) :
    setAll fields own = own ++ fields := by
  induction fields generalizing own with
  | nil => exact (List.append_nil own).symm
  | cons f fields ih =>
    have hf : f.1 ∉ own.map (·.1) := by
      rw [List.map_append, List.nodup_append] at h
      exact fun hmem => h.2.2 f.1 hmem f.1 List.mem_cons_self rfl
    have hstep : setAll (f :: fields) own = setAll fields (own ++ [f]) := by
      rw [setAll, List.foldl_cons, Fields.insert_of_notMem hf]
      rfl
    rw [hstep, ih (by rwa [List.append_assoc]), List.append_assoc]
    rfl

theorem documentOf_eq (n : Include) (r : Nested) :
    documentOf n r = document n.attributes n.includes r := by
  cases n
  rw [documentOf, document]

/-- The field of a node in the object of a row. -/
def fieldOf (r : Nested) (n : Include) : String × Document :=
  (n.name, gathered n.kind ((r.joined n.name).map (documentOf n)))

theorem fieldsBelow_eq (h : ∀ n ∈ nodes, n.separate = false) :
    fieldsBelow nodes r = (nodes.filter isShown).map (fieldOf r) := by
  induction nodes with
  | nil =>
    rw [fieldsBelow]
    rfl
  | cons n nodes ih =>
    rw [List.forall_mem_cons] at h
    rw [fieldsBelow, ih h.2, List.filter_cons, isShown, h.1]
    cases isPathOnly n <;> rfl

/-- The text by which the rows of one base row are recognised. -/
def rowIdentity (m : Model) (attributes : List String) (r : Nested) : String :=
  identity m (attributes.map fun a => (a, r.value a))

theorem Identified.nodup_rowIdentity (h : Identified m.primaryKey attributes rs)
    (hattributes : attributes.Nodup) : (rs.map (rowIdentity m attributes)).Nodup := by
  have hkey : ∀ r ∈ rs, rowIdentity m attributes r = (r.value m.primaryKey).compact := by
    intro r hr
    have hnodup : ((attributes.map fun a => (a, r.value a)).map (·.1)).Nodup := by
      rwa [names_columns]
    have hlookup : (attributes.map fun a => (a, r.value a)).lookup m.primaryKey =
        some (r.value m.primaryKey) :=
      lookup_of_mem hnodup (List.mem_map.mpr ⟨_, h.selected, rfl⟩)
    have hnotNull := h.notNull r hr
    rw [rowIdentity, identity, hlookup]
    cases hvalue : r.value m.primaryKey with
    | null => exact absurd hvalue hnotNull
    | _ => rfl
  have hmap : rs.map (rowIdentity m attributes) =
      (rs.map (·.value m.primaryKey)).map Document.compact := by
    rw [List.map_map]
    exact List.map_congr_left hkey
  rw [hmap]
  exact h.distinct.map fun _ _ hab => Document.compact_injective hab

theorem nodup_of_length_le_one (h : rs.length ≤ 1) : (rs.map (rowIdentity m attributes)).Nodup := by
  cases rs with
  | nil => exact List.nodup_nil
  | cons r rs =>
    cases rs with
    | nil => exact List.nodup_singleton _
    | cons r' rs =>
      rw [List.length_cons, List.length_cons] at h
      omega

/-- The fields for the associations have other names than those for the attributes. -/
theorem nodup_documentFields (hs : Schema.build c = .ok s) (hm : m ∈ s.models)
    (hnodes : JoinForest s m nodes) (hselected : Selected m attributes) :
    (((attributes.map fun a => (a, r.value a)) ++
      (nodes.filter isShown).map (fieldOf r)).map (·.1)).Nodup := by
  rw [List.map_append, names_columns, List.map_map, List.nodup_append]
  refine ⟨hselected.nodup, (List.filter_sublist.map _).nodup hnodes.names, ?_⟩
  intro a ha b hb hab
  obtain ⟨n, hn, rfl⟩ := List.mem_map.mp hb
  have hname : a = n.name := hab
  have hnot := hnodes.notMem_attributes hs hm hselected (List.mem_filter.mp hn).1
  exact hnot (hname ▸ ha)

/-- The rows that the join gives for one row merge to it, if what is joined to it is restored. -/
theorem mergedObject_nestedRows (hs : Schema.build c = .ok s) (hm : m ∈ s.models)
    (hnodes : JoinForest s m nodes) (hselected : Selected m attributes)
    (hjoinable : ∀ n ∈ nodes, Joinable s n r)
    (H : ∀ n ∈ nodes, isPathOnly n = false →
      shownField s (fun _ => nestedRows n.attributes n.includes (r.joined n.name)) n =
        .ok (fieldOf r n)) :
    mergedObject s nodes ((choicesAll nodes r).map (nestedRow attributes nodes r.value)) =
      .ok (document attributes nodes r) := by
  have hseparate : ∀ n ∈ nodes, n.separate = false := fun n hn => (hnodes.trees n hn).separate
  have hfields : (nodes.filter isShown).mapM (shownField s (rowsUnder nodes
      ((choicesAll nodes r).map (nestedRow attributes nodes r.value)))) =
      .ok ((nodes.filter isShown).map (fieldOf r)) := by
    refine mapM_of_eq_ok fun n hn => ?_
    obtain ⟨hn, hshown⟩ := List.mem_filter.mp hn
    have hpath : isPathOnly n = false := by
      rw [isShown, hseparate n hn, Bool.false_or] at hshown
      simpa using hshown
    rw [← H n hn hpath]
    exact shownField_repeats (hnodes.trees n hn).rooted
      (repeats_rowsUnder hs hm hnodes hselected hn hpath (hjoinable n hn))
  have hne : choicesAll nodes r ≠ [] := choicesAll_ne_nil
  obtain ⟨below, rest, hchoices⟩ := List.exists_cons_of_ne_nil hne
  refine mergedObject_eq_ok.mpr ⟨(nodes.filter isShown).map (fieldOf r), ?_, ?_⟩
  · rw [filter_joined hnodes]
    exact hfields
  · rw [filter_joined hnodes, hchoices, List.map_cons, List.head?_cons, Option.map_some,
      Option.getD_some, ownOf_nestedRow hs hm hnodes hselected,
      setAll_of_fresh (nodup_documentFields hs hm hnodes hselected), document,
      fieldsBelow_eq hseparate]

/-- If rows are told apart at this level, and what is joined to each is restored at the next, then
the join of the rows merges to them. -/
theorem mergeRows_nestedRows_of (hs : Schema.build c = .ok s) (hm : m ∈ s.models)
    (hnodes : JoinForest s m nodes) (hselected : Selected m attributes)
    (hids : (rs.map (rowIdentity m attributes)).Nodup)
    (hjoinable : ∀ r ∈ rs, ∀ n ∈ nodes, Joinable s n r)
    (H : ∀ n ∈ nodes, isPathOnly n = false → ∀ r, Joinable s n r →
      shownField s (fun _ => nestedRows n.attributes n.includes (r.joined n.name)) n =
        .ok (fieldOf r n)) :
    mergeRows s m nodes (nestedRows attributes nodes rs) =
      .ok (rs.map (document attributes nodes)) := by
  have hidentity : ∀ r ∈ rs, ∀ row ∈ (choicesAll nodes r).map (nestedRow attributes nodes r.value),
      identityOf m nodes row = rowIdentity m attributes r := by
    intro r _ row hrow
    obtain ⟨below, -, rfl⟩ := List.mem_map.mp hrow
    rw [identityOf, ownOf_nestedRow hs hm hnodes hselected, rowIdentity]
  have hblock : ∀ r ∈ rs, (choicesAll nodes r).map (nestedRow attributes nodes r.value) ≠ [] :=
    fun r _ => mt List.map_eq_nil_iff.mp choicesAll_ne_nil
  rw [mergeRows_eq hnodes.names, filter_joined hnodes, nestedRows,
    eraseDups_blocks hids hblock hidentity, List.mapM_map]
  refine mapM_of_eq_ok fun r hr => ?_
  rw [Function.comp_apply, having, filter_blocks hids hidentity hr]
  exact mergedObject_nestedRows hs hm hnodes hselected (hjoinable r hr)
    fun n hn hpath => H n hn hpath r (hjoinable r hr n hn)

/-- What is joined to a row for a node is restored. -/
theorem JoinTree.shownField_nestedRows (hs : Schema.build c = .ok s) (h : JoinTree s m n)
    (hn : isPathOnly n = false) (hr : Joinable s n r) :
    shownField s (fun _ => nestedRows n.attributes n.includes (r.joined n.name)) n =
      .ok (fieldOf r n) := by
  induction h generalizing r with
  | @node m t assoc n hf htarget _ _ _ hselected hnames htrees ih =>
    have ht : s.model n.target = .ok t := by
      rw [htarget]
      exact Schema.model_name (Schema.follow_eq_ok.mp hf).2
    have hids : ((r.joined n.name).map (rowIdentity t n.attributes)).Nodup := by
      cases hr with
      | hidden hpath => cases hn.symm.trans hpath
      | many _ ht' hidentified _ _ =>
        cases ht.symm.trans ht'
        exact hidentified.nodup_rowIdentity hselected.nodup
      | one _ hlength _ _ => exact nodup_of_length_le_one hlength
    have hbelow : ∀ row ∈ r.joined n.name, ∀ b ∈ n.includes, Joinable s b row := by
      cases hr with
      | hidden hpath => cases hn.symm.trans hpath
      | many _ _ _ _ hbelow => exact hbelow
      | one _ _ _ hbelow => exact hbelow
    have hmerged := mergeRows_nestedRows_of hs (Schema.mem_of_follow hf) ⟨hnames, htrees⟩ hselected
      hids hbelow fun b hb hshown row hrow => ih b hb hshown hrow
    refine shownField_eq_ok.mpr ⟨t, _, ht, hmerged, ?_⟩
    rw [fieldOf]
    refine congrArg (fun docs => (n.name, gathered n.kind docs)) ?_
    exact List.map_congr_left fun row _ => documentOf_eq n row

/-- The flat rows of a join are assembled to the rows that were joined. -/
theorem assemble_joinRows (hs : Schema.build c = .ok s) (hm : m ∈ s.models)
    (hnodes : JoinForest s m nodes) (hselected : Selected m attributes)
    (hrows : Identified m.primaryKey attributes rs)
    (hjoinable : ∀ r ∈ rs, ∀ n ∈ nodes, Joinable s n r) :
    assemble s m nodes (rs.flatMap (joinRows attributes nodes)) =
      .ok (rs.map (document attributes nodes)) := by
  have hnest : (rs.flatMap (joinRows attributes nodes)).map nest =
      nestedRows attributes nodes rs := by
    rw [List.map_flatMap, nestedRows]
    refine congrArg (fun f => List.flatMap f rs) (funext fun r => ?_)
    rw [joinRows, List.map_map]
    exact List.map_congr_left fun below _ => nest_joinRow hs hm hnodes hselected
  rw [assemble_eq, hnest]
  exact mergeRows_nestedRows_of hs hm hnodes hselected (hrows.nodup_rowIdentity hselected.nodup)
    hjoinable fun n hn hshown r hr => (hnodes.trees n hn).shownField_nestedRows hs hshown hr

/-- The flat rows that the statement of a plan finds for rows and those joined to them, with the
columns that it selects, are assembled to these rows. -/
theorem assemble_select {p : Plan} (hs : Schema.build c = .ok s) (hm : s.model p.model = .ok m)
    (hattributes : p.attributes = attributes.map .column) (hselected : Selected m attributes)
    (hnodes : JoinForest s m p.includes)
    (hnames : ∀ n ∈ p.includes, n.name ≠ "" ∨ allPathOnly n.includes = true)
    (hrows : Identified m.primaryKey attributes rs)
    (hjoinable : ∀ r ∈ rs, ∀ n ∈ p.includes, Joinable s n r) :
    (∀ q, p.select s = .ok q → ∀ row ∈ rs.flatMap (joinRows attributes p.includes),
      q.columns.map (·.getLast?) = row.map fun f => some (.name f.1)) ∧
    assemble s m p.includes (rs.flatMap (joinRows attributes p.includes)) =
      .ok (rs.map (document attributes p.includes)) := by
  refine ⟨fun q hq row hrow => ?_,
    assemble_joinRows hs (Schema.mem_of_model hm) hnodes hselected hrows hjoinable⟩
  obtain ⟨r, -, hrow⟩ := List.mem_flatMap.mp hrow
  exact outputs_select hm hnodes hnames hattributes hq hrow

/-! ### Authors with their books, prizes and towns -/

def author : ModelConfig where
  name := "Author"
  attributes := [{ name := "id", type := "TEXT", primaryKey := true },
    { name := "townId", type := "TEXT" }]
  associations := [
    { kind := .hasMany, target := "Book", declaredName := some "books", foreignKey := "author" },
    { kind := .hasMany, target := "Prize", declaredName := some "prizes", foreignKey := "author" },
    { kind := .belongsTo, target := "Town", declaredName := some "town", foreignKey := "townId" }]

def book : ModelConfig where
  name := "Book"
  attributes := [{ name := "id", type := "TEXT", primaryKey := true },
    { name := "author", type := "TEXT" }]
  associations := [
    { kind := .hasMany, target := "Prize", declaredName := some "prizes", foreignKey := "book" },
    { kind := .belongsTo, target := "Author", declaredName := some "writer",
      foreignKey := "author" }]

def prize : ModelConfig where
  name := "Prize"
  attributes := [{ name := "ref", type := "JSONB", primaryKey := true },
    { name := "author", type := "TEXT" }, { name := "book", type := "TEXT" }]

def town : ModelConfig where
  name := "Town"
  attributes := [{ name := "id", type := "TEXT", primaryKey := true },
    { name := "name", type := "TEXT" }]

def press : Config where
  models := [author, book, prize, town]

def pressSchema : Schema := ⟨press.models.map (·.resolve), press.options⟩

theorem build_press : Schema.build press = .ok pressSchema := by decide

def prizesNode : Include where
  target := "Prize"
  name := "prizes"
  kind := .hasMany
  attributes := ["ref"]

/-- The writer of a book, for a filter only. -/
def writerNode : Include where
  target := "Author"
  name := "writer"
  kind := .belongsTo

def booksNode : Include where
  target := "Book"
  name := "books"
  kind := .hasMany
  attributes := ["id"]
  includes := [prizesNode, writerNode]

def townNode : Include where
  target := "Town"
  name := "town"
  kind := .belongsTo
  attributes := ["name"]

def pressPlan : Plan where
  model := "Author"
  attributes := [.column "id"]
  includes := [booksNode, prizesNode, townNode]

/-- A row with a value for one attribute. -/
def single (name text : String) (joined : String → List Nested) : Nested :=
  .row (fun a => if a = name then .str text else .null) joined

/-- The first author has two books, one of them with two prizes, and another prize; the second has
nothing but a town. -/
def pressRows : List Nested := [
  single "id" "a" fun
    | "books" => [
      single "id" "b" fun
        | "prizes" => [single "ref" "p" fun _ => [], single "ref" "q" fun _ => []]
        | "writer" => [single "id" "a" fun _ => []]
        | _ => [],
      single "id" "c" fun _ => []]
    | "prizes" => [single "ref" "r" fun _ => []]
    | _ => [],
  single "id" "d" fun
    | "town" => [single "name" "x" fun _ => []]
    | _ => []]

theorem selected_press {m : Model} {a : String} (ha : a ∈ m.attributeNames)
    (hpoint : '.' ∉ a.toList) : Selected m [a] :=
  ⟨List.nodup_singleton a, List.forall_mem_singleton.mpr ha, List.forall_mem_singleton.mpr hpoint⟩

theorem pressPlan_forest : JoinForest pressSchema author.resolve pressPlan.includes := by
  have hprizes : ∀ {m assoc}, pressSchema.follow m "prizes" = .ok (assoc, prize.resolve) →
      assoc.kind = .hasMany → JoinTree pressSchema m prizesNode := fun hf hk =>
    .node hf rfl hk.symm rfl (by decide) (selected_press (by decide) (by decide)) List.nodup_nil nofun
  have hwriter : JoinTree pressSchema book.resolve writerNode :=
    .node (t := author.resolve) rfl rfl rfl rfl (by decide)
      ⟨List.nodup_nil, List.forall_mem_nil _, List.forall_mem_nil _⟩ List.nodup_nil nofun
  have hbooks : JoinTree pressSchema author.resolve booksNode :=
    .node (t := book.resolve) rfl rfl rfl rfl (by decide)
      (selected_press (by decide) (by decide)) (by decide)
      (List.forall_mem_cons.mpr ⟨hprizes rfl rfl, List.forall_mem_singleton.mpr hwriter⟩)
  have htown : JoinTree pressSchema author.resolve townNode :=
    .node (t := town.resolve) rfl rfl rfl rfl (by decide)
      (selected_press (by decide) (by decide)) List.nodup_nil nofun
  refine ⟨by decide, ?_⟩
  simp only [pressPlan, List.forall_mem_cons]
  exact ⟨hbooks, hprizes rfl rfl, htown, nofun⟩

theorem identified_single {key : String} {rows : List Nested} (texts : List String)
    (hvalues : rows.map (·.value key) = texts.map Document.str) (hnodup : texts.Nodup) :
    Identified key [key] rows := by
  refine ⟨List.mem_singleton_self key, fun r hr hnull => ?_, ?_⟩
  · have hmem : Document.null ∈ rows.map (·.value key) := List.mem_map.mpr ⟨r, hr, hnull⟩
    rw [hvalues] at hmem
    obtain ⟨text, -, heq⟩ := List.mem_map.mp hmem
    cases heq
  · rw [hvalues]
    exact hnodup.map fun _ _ h => Document.str.inj h

theorem pressRows_joinable : ∀ r ∈ pressRows, ∀ n ∈ pressPlan.includes,
    Joinable pressSchema n r := by
  have hprizes : ∀ {r : Nested} (texts : List String),
      r.joined "prizes" = texts.map (fun text => single "ref" text fun _ => []) → texts.Nodup →
      Joinable pressSchema prizesNode r := by
    intro r texts hrows hnodup
    have hrows' : r.joined prizesNode.name = texts.map (fun text => single "ref" text fun _ => []) :=
      hrows
    refine .many (t := prize.resolve) rfl rfl (identified_single texts ?_ hnodup) ?_ ?_
    · rw [hrows', List.map_map]
      rfl
    · rw [hrows', List.forall_mem_map]
      exact fun text _ => .inl ⟨"ref", List.mem_singleton_self _, nofun⟩
    · exact fun _ _ => nofun
  have hwriter : ∀ {r : Nested}, Joinable pressSchema writerNode r := .hidden rfl
  have hbooks : ∀ r ∈ pressRows, Joinable pressSchema booksNode r := by
    simp only [pressRows, List.forall_mem_cons]
    refine ⟨?_, ?_, nofun⟩
    · refine .many (t := book.resolve) rfl rfl (identified_single ["b", "c"] rfl (by decide)) ?_ ?_
      · exact List.forall_mem_cons.mpr ⟨.inl ⟨"id", List.mem_singleton_self _, nofun⟩,
          List.forall_mem_singleton.mpr (.inl ⟨"id", List.mem_singleton_self _, nofun⟩)⟩
      · refine List.forall_mem_cons.mpr ⟨?_, List.forall_mem_singleton.mpr ?_⟩
        · exact List.forall_mem_cons.mpr ⟨hprizes ["p", "q"] rfl (by decide),
            List.forall_mem_singleton.mpr hwriter⟩
        · exact List.forall_mem_cons.mpr ⟨hprizes [] rfl List.nodup_nil,
            List.forall_mem_singleton.mpr hwriter⟩
    · exact .many (t := book.resolve) rfl rfl (identified_single [] rfl List.nodup_nil) nofun nofun
  have htown : ∀ r ∈ pressRows, Joinable pressSchema townNode r := by
    simp only [pressRows, List.forall_mem_cons]
    refine ⟨.one rfl (Nat.zero_le _) nofun nofun, ?_, nofun⟩
    refine .one rfl (Nat.le_refl _) ?_ fun _ _ => nofun
    exact List.forall_mem_singleton.mpr (.inl ⟨"name", List.mem_singleton_self _, nofun⟩)
  intro r hr
  simp only [pressPlan, List.forall_mem_cons]
  refine ⟨hbooks r hr, ?_, htown r hr, nofun⟩
  revert r
  simp only [pressRows, List.forall_mem_cons]
  exact ⟨hprizes ["r"] rfl (by decide), hprizes [] rfl List.nodup_nil, nofun⟩

theorem pressRows_assembled :
    (∀ q, pressPlan.select pressSchema = .ok q →
      ∀ row ∈ pressRows.flatMap (joinRows ["id"] pressPlan.includes),
        q.columns.map (·.getLast?) = row.map fun f => some (.name f.1)) ∧
    assemble pressSchema author.resolve pressPlan.includes
        (pressRows.flatMap (joinRows ["id"] pressPlan.includes)) =
      .ok (pressRows.map (document ["id"] pressPlan.includes)) :=
  assemble_select build_press rfl rfl (selected_press (by decide) (by decide)) pressPlan_forest
    (by decide) (identified_single ["a", "d"] rfl (by decide)) pressRows_joinable

/-- A prize whose key is an empty array, and an author who has it. -/
def blankPrize : Nested := .row (fun _ => .arr []) fun _ => []

def blankAuthor : Nested :=
  single "id" "a" fun
    | "prizes" => [blankPrize]
    | _ => []

/-- Such a prize is taken for none, although its key is not null. -/
theorem assemble_blankAuthor :
    Identified prize.resolve.primaryKey ["ref"] (blankAuthor.joined "prizes") ∧
    assemble pressSchema author.resolve [prizesNode] (joinRows ["id"] [prizesNode] blankAuthor) =
      .ok [.obj [("id", .str "a"), ("prizes", .arr [])]] ∧
    document ["id"] [prizesNode] blankAuthor =
      .obj [("id", .str "a"), ("prizes", .arr [.obj [("ref", .arr [])]])] := by
  have hidentified : Identified prize.resolve.primaryKey ["ref"] [blankPrize] :=
    ⟨List.mem_singleton_self _, List.forall_mem_singleton.mpr nofun, List.nodup_singleton _⟩
  exact ⟨hidentified, rfl, rfl⟩

end RelQuery.Rows

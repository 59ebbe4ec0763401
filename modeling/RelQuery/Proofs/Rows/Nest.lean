import RelQuery.Proofs.Document.Fields
import RelQuery.Rows.Assemble

/-!
# Nested columns

A column key is taken apart at its points, and its value is set under the path of its parts. Columns
that lead into an object do not change what stands under other keys.
-/

namespace RelQuery.Rows

variable {cs ds : List Char} {k j name : String} {v : Document} {fields acc inner : Fields}
  {path : List String} {row : Row} {es : List (List String × Document)}

/-! ## Parts of keys -/

theorem splitKey_of_notMem (h : '.' ∉ cs) : splitKey cs = [cs] := by
  induction cs with
  | nil => rfl
  | cons c cs ih =>
    rw [List.mem_cons, not_or] at h
    rw [splitKey, ih h.2]
    exact if_neg (Ne.symm h.1)

theorem splitKey_ne_nil (cs : List Char) : splitKey cs ≠ [] := by
  cases cs with
  | nil => nofun
  | cons c cs =>
    rw [splitKey]
    split
    · split <;> nofun
    · nofun

theorem splitKey_append (h : '.' ∉ cs) : splitKey (cs ++ '.' :: ds) = cs :: splitKey ds := by
  induction cs with
  | nil =>
    rw [List.nil_append, splitKey]
    cases hds : splitKey ds with
    | nil => exact absurd hds (splitKey_ne_nil ds)
    | cons part parts => rfl
  | cons c cs ih =>
    rw [List.mem_cons, not_or] at h
    rw [List.cons_append, splitKey, ih h.2]
    exact if_neg (Ne.symm h.1)

/-- The parts give the key again. -/
theorem intercalate_splitKey (cs : List Char) : ['.'].intercalate (splitKey cs) = cs := by
  induction cs with
  | nil => rfl
  | cons c cs ih =>
    rw [splitKey]
    cases hcs : splitKey cs with
    | nil => exact absurd hcs (splitKey_ne_nil cs)
    | cons part parts =>
      rw [hcs] at ih
      dsimp only
      split
      · rename_i hc
        rw [List.intercalate_cons_cons, ih, hc]
        rfl
      · cases parts with
        | nil =>
          rw [List.intercalate_singleton] at ih ⊢
          rw [ih]
        | cons part' parts =>
          rw [List.intercalate_cons_cons] at ih ⊢
          rw [← ih]
          rfl

/-- The path that a column key stands for. -/
def keyPath (k : String) : List String := (splitKey k.toList).map String.ofList

theorem keyPath_of_notMem (h : '.' ∉ k.toList) : keyPath k = [k] := by
  rw [keyPath, splitKey_of_notMem h, List.map_singleton, String.ofList_toList]

theorem keyPath_ne_nil (k : String) : keyPath k ≠ [] := by
  rw [keyPath, Ne, List.map_eq_nil_iff]
  exact splitKey_ne_nil _

theorem keyPath_append (h : '.' ∉ name.toList) : keyPath (name ++ "." ++ k) = name :: keyPath k := by
  have htext : (name ++ "." ++ k).toList = name.toList ++ '.' :: k.toList := by
    simp [String.toList_append]
  rw [keyPath, htext, splitKey_append h, List.map_cons, String.ofList_toList, keyPath]

/-- A path starts with a name if its key is the name, or leads on from it. -/
theorem cases_of_keyPath (h : keyPath k = name :: path) :
    (path = [] ∧ k = name) ∨ (path ≠ [] ∧ (name ++ ".").toList <+: k.toList) := by
  have hkey := intercalate_splitKey k.toList
  cases hparts : splitKey k.toList with
  | nil => exact absurd hparts (splitKey_ne_nil _)
  | cons part parts =>
    rw [keyPath, hparts, List.map_cons, List.cons.injEq] at h
    obtain ⟨rfl, rfl⟩ := h
    rw [hparts] at hkey
    cases parts with
    | nil =>
      rw [List.intercalate_singleton] at hkey
      exact .inl ⟨rfl, String.toList_inj.mp (by rw [String.toList_ofList, hkey])⟩
    | cons part' parts =>
      rw [List.intercalate_cons_cons] at hkey
      refine .inr ⟨nofun, ?_⟩
      rw [String.toList_append, String.toList_ofList, ← hkey]
      exact List.prefix_append _ _

/-! ## Setting values -/

theorem insertPath_single : insertPath v [k] fields = fields.insert k v := rfl

theorem insertPath_cons (hpath : path ≠ []) : insertPath v (k :: path) fields =
    match fields.lookup k with
    | none => fields.insert k (.obj (insertPath v path []))
    | some (.obj inner) => fields.insert k (.obj (insertPath v path inner))
    | some _ => fields := by
  cases path with
  | nil => exact absurd rfl hpath
  | cons l path => rfl

theorem nodup_insertPath (h : (fields.map (·.1)).Nodup) :
    ((insertPath v path fields).map (·.1)).Nodup := by
  cases path with
  | nil => exact h
  | cons k path =>
    cases path with
    | nil => exact Fields.nodup_insert h
    | cons l path =>
      rw [insertPath_cons (List.cons_ne_nil l path)]
      split
      · exact Fields.nodup_insert h
      · exact Fields.nodup_insert h
      · exact h

/-- A path does not change what stands under other keys. -/
theorem lookup_insertPath_of_ne (h : k ≠ j) :
    (insertPath v (k :: path) fields).lookup j = fields.lookup j := by
  cases path with
  | nil => rw [insertPath_single, Fields.lookup_insert, if_neg (Ne.symm h)]
  | cons l path =>
    rw [insertPath_cons (List.cons_ne_nil l path)]
    split
    · rw [Fields.lookup_insert, if_neg (Ne.symm h)]
    · rw [Fields.lookup_insert, if_neg (Ne.symm h)]
    · rfl

/-- A path that meets no object is passed over. -/
theorem insertPath_of_scalar (hpath : path ≠ []) (h : fields.lookup k = some v)
    (hscalar : ∀ inner, v ≠ .obj inner) {w : Document} :
    insertPath w (k :: path) fields = fields := by
  rw [insertPath_cons hpath, h]
  cases v with
  | obj inner => exact absurd rfl (hscalar inner)
  | _ => rfl

/-- Sets values under paths, one after the other. -/
def insertPaths (es : List (List String × Document)) (acc : Fields) : Fields :=
  es.foldl (fun acc e => insertPath e.2 e.1 acc) acc

theorem nest_eq (row : Row) : nest row = insertPaths (row.map fun f => (keyPath f.1, f.2)) [] := by
  rw [nest, insertPaths, List.foldl_map]
  rfl

theorem insertPaths_append {es' : List (List String × Document)} :
    insertPaths (es ++ es') acc = insertPaths es' (insertPaths es acc) := List.foldl_append

theorem nodup_insertPaths (h : (acc.map (·.1)).Nodup) :
    ((insertPaths es acc).map (·.1)).Nodup := by
  induction es generalizing acc with
  | nil => exact h
  | cons e es ih => exact ih (nodup_insertPath h)

theorem nodup_nest (row : Row) : ((nest row).map (·.1)).Nodup := by
  rw [nest_eq]
  exact nodup_insertPaths List.nodup_nil

/-- Paths into one object, which stands last, are set in it. -/
theorem insertPaths_into (h : name ∉ acc.map (·.1)) (hes : ∀ e ∈ es, e.1 ≠ []) :
    insertPaths (es.map fun e => (name :: e.1, e.2)) (acc ++ [(name, .obj inner)]) =
      acc ++ [(name, .obj (insertPaths es inner))] := by
  induction es generalizing inner with
  | nil => rfl
  | cons e es ih =>
    rw [List.forall_mem_cons] at hes
    have hlookup : (acc ++ [(name, Document.obj inner)]).lookup name = some (.obj inner) := by
      rw [List.lookup_append, lookup_eq_none_iff.mpr h, lookup_cons_if, if_pos rfl]
      rfl
    have hstep : insertPath e.2 (name :: e.1) (acc ++ [(name, .obj inner)]) =
        acc ++ [(name, .obj (insertPath e.2 e.1 inner))] := by
      rw [insertPath_cons hes.1, hlookup]
      exact Fields.insert_append_cons h
    rw [List.map_cons, insertPaths, List.foldl_cons, hstep]
    exact ih hes.2

/-- Paths below a new name make one object of what they lead to. -/
theorem insertPaths_below (h : name ∉ acc.map (·.1)) (hes : ∀ e ∈ es, e.1 ≠ []) (hne : es ≠ []) :
    insertPaths (es.map fun e => (name :: e.1, e.2)) acc =
      acc ++ [(name, .obj (insertPaths es []))] := by
  cases es with
  | nil => exact absurd rfl hne
  | cons e es =>
    rw [List.forall_mem_cons] at hes
    have hstep : insertPath e.2 (name :: e.1) acc =
        acc ++ [(name, .obj (insertPath e.2 e.1 []))] := by
      rw [insertPath_cons hes.1, lookup_eq_none_iff.mpr h]
      exact Fields.insert_of_notMem h
    rw [List.map_cons, insertPaths, List.foldl_cons, hstep]
    exact insertPaths_into h hes.2

/-- Paths of one name each are fields. -/
theorem insertPaths_single {fs : Fields} (h : ((acc ++ fs).map (·.1)).Nodup) :
    insertPaths (fs.map fun f => ([f.1], f.2)) acc = acc ++ fs := by
  induction fs generalizing acc with
  | nil => exact (List.append_nil acc).symm
  | cons f fs ih =>
    have hf : f.1 ∉ acc.map (·.1) := by
      rw [List.map_append, List.nodup_append] at h
      exact fun hmem => h.2.2 f.1 hmem f.1 List.mem_cons_self rfl
    have hstep : insertPath f.2 [f.1] acc = acc ++ [f] := Fields.insert_of_notMem hf
    rw [List.map_cons, insertPaths, List.foldl_cons, hstep]
    have hnodup : ((acc ++ [f] ++ fs).map (·.1)).Nodup := by rwa [List.append_assoc]
    have hrest := ih hnodup
    rw [List.append_assoc] at hrest
    exact hrest

/-! ## Keys in rows -/

/-- A row that carries a key: its columns have distinct names, the key is not null, and if it is an
object then no column leads into it. -/
structure Keyed (key : String) (row : Row) : Prop where
  names : (row.map (·.1)).Nodup
  exists_key : ∃ v, row.lookup key = some v ∧ v ≠ .null
  outside : ∀ fields, row.lookup key = some (.obj fields) →
    ∀ f ∈ row, ¬(key ++ ".").toList <+: f.1.toList

/-- Later columns leave a value as it is: they lead elsewhere, or they find a value that is no
object. -/
theorem lookup_insertPaths_of_outside {fs : Fields} (hne : ∀ f ∈ fs, f.1 ≠ k)
    (hout : ∀ fields, v = .obj fields → ∀ f ∈ fs, ¬(k ++ ".").toList <+: f.1.toList)
    (hacc : acc.lookup k = some v) :
    (insertPaths (fs.map fun f => (keyPath f.1, f.2)) acc).lookup k = some v := by
  induction fs generalizing acc with
  | nil => exact hacc
  | cons f fs ih =>
    rw [List.forall_mem_cons] at hne
    refine ih hne.2 (fun fields hobj f hf => hout fields hobj f (List.mem_cons_of_mem _ hf)) ?_
    obtain ⟨name, path, hpath⟩ := List.exists_cons_of_ne_nil (keyPath_ne_nil f.1)
    dsimp only
    rw [hpath]
    by_cases hname : name = k
    · subst hname
      rcases cases_of_keyPath hpath with ⟨-, heq⟩ | ⟨hlong, hprefix⟩
      · exact absurd heq hne.1
      · have hscalar : ∀ fields, v ≠ .obj fields := by
          intro fields hobj
          exact hout fields hobj f List.mem_cons_self hprefix
        rw [insertPath_of_scalar hlong hacc hscalar, hacc]
    · rw [lookup_insertPath_of_ne hname, hacc]

/-- Nesting leaves the key of a row as it is. -/
theorem Keyed.lookup_nest (h : Keyed k row) (hk : '.' ∉ k.toList) :
    (nest row).lookup k = row.lookup k := by
  obtain ⟨v, hv, -⟩ := h.exists_key
  obtain ⟨l, r, rfl, -⟩ := List.lookup_eq_some_iff.mp hv
  have hr : ∀ f ∈ r, f.1 ≠ k := by
    have hnames := h.names
    rw [List.map_append, List.map_cons, List.nodup_append, List.nodup_cons] at hnames
    intro f hf heq
    exact hnames.2.1.1 (List.mem_map.mpr ⟨f, hf, heq⟩)
  have hout : ∀ fields, v = .obj fields → ∀ f ∈ r, ¬(k ++ ".").toList <+: f.1.toList := by
    rintro fields rfl f hf
    exact h.outside fields hv f (List.mem_append_right _ (List.mem_cons_of_mem _ hf))
  rw [hv, nest_eq, List.map_append, List.map_cons, insertPaths_append, keyPath_of_notMem hk]
  apply lookup_insertPaths_of_outside hr hout
  change (insertPath v [k] _).lookup k = some v
  rw [insertPath_single, Fields.lookup_insert, if_pos rfl]

end RelQuery.Rows

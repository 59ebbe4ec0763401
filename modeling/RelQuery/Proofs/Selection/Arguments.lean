import RelQuery.Proofs.Document.Distinct
import RelQuery.Proofs.Document.Fields
import RelQuery.Selection.Decode

/-!
# Two readings of an argument

A request says a variable by an object with a name under `$var`. An argument that is read takes
every such object for the variable, an argument that is given by its value only one without other
keys. So the two agree exactly on the values in which a variable stands alone; elsewhere what is
read has lost the other keys.
-/

namespace RelQuery.Argument

/-- Variables stand alone in a value: an object with a name under `$var` has no other key. -/
inductive Unmixed : Document → Prop
  | null : Unmixed .null
  | bool {b : Bool} : Unmixed (.bool b)
  | num {n : Number} : Unmixed (.num n)
  | str {t : String} : Unmixed (.str t)
  | array {items : List Document} : (∀ d ∈ items, Unmixed d) → Unmixed (.arr items)
  | alone {name : String} : Unmixed (.obj [("$var", .str name)])
  | object {fields : List (String × Document)} :
      (∀ name, fields.lookup "$var" ≠ some (.str name)) → (∀ f ∈ fields, Unmixed f.2) →
      Unmixed (.obj fields)

mutual

/-- The value without the keys that stand beside a variable. -/
def unmix : Document → Document
  | .arr items => .arr (unmixItems items)
  | .obj fields =>
    match fields.lookup "$var" with
    | some (.str name) => .obj [("$var", .str name)]
    | _ => .obj (unmixFields fields)
  | value => value

def unmixItems : List Document → List Document
  | [] => []
  | d :: ds => unmix d :: unmixItems ds

def unmixFields : List (String × Document) → List (String × Document)
  | [] => []
  | (k, d) :: fs => (k, unmix d) :: unmixFields fs

end

variable {vars fields : Fields} {items : List Document} {d v : Document} {name : String}

/-! ## Item by item and field by field -/

theorem readItems_eq_map : readItems items = items.map read := by
  induction items with
  | nil => rfl
  | cons d items ih => rw [readItems, ih, List.map_cons]

theorem readFields_eq_map : readFields fields = fields.map fun f => (f.1, read f.2) := by
  induction fields with
  | nil => rfl
  | cons f fields ih => rw [readFields, ih, List.map_cons]

theorem ofItems_eq_map : ofItems items = items.map ofDocument := by
  induction items with
  | nil => rfl
  | cons d items ih => rw [ofItems, ih, List.map_cons]

theorem ofFields_eq_map : ofFields fields = fields.map fun f => (f.1, ofDocument f.2) := by
  induction fields with
  | nil => rfl
  | cons f fields ih => rw [ofFields, ih, List.map_cons]

theorem unmixItems_eq_map : unmixItems items = items.map unmix := by
  induction items with
  | nil => rfl
  | cons d items ih => rw [unmixItems, ih, List.map_cons]

theorem unmixFields_eq_map : unmixFields fields = fields.map fun f => (f.1, unmix f.2) := by
  induction fields with
  | nil => rfl
  | cons f fields ih => rw [unmixFields, ih, List.map_cons]

theorem resolveItems_eq_map {as : List Argument} :
    resolveItems vars as = as.map fun a => (a.resolve? vars).getD .null := by
  induction as with
  | nil => rfl
  | cons a as ih => rw [resolveItems, ih, List.map_cons]

theorem resolveFields_eq_filterMap {as : List (String × Argument)} :
    resolveFields vars as = as.filterMap fun a => (a.2.resolve? vars).map (a.1, ·) := by
  induction as with
  | nil => rfl
  | cons a as ih =>
    rw [resolveFields, ih, List.filterMap_cons]
    cases a.2.resolve? vars <;> rfl

/-! ## Objects -/

theorem read_variable (h : fields.lookup "$var" = some (.str name)) :
    read (.obj fields) = .var name := by
  rw [read, h]

section
variable (h : ∀ name, fields.lookup "$var" ≠ some (.str name))
include h

theorem read_object : read (.obj fields) = .object (fields.map fun f => (f.1, read f.2)) := by
  rw [read, readFields_eq_map]
  split
  · rename_i name hname
    exact (h name hname).elim
  · rfl

theorem unmix_object : unmix (.obj fields) = .obj (fields.map fun f => (f.1, unmix f.2)) := by
  rw [unmix, unmixFields_eq_map]
  split
  · rename_i name hname
    exact (h name hname).elim
  · rfl

end

theorem ofDocument_object (h : ∀ name, fields ≠ [("$var", .str name)]) :
    ofDocument (.obj fields) = .object (fields.map fun f => (f.1, ofDocument f.2)) := by
  rw [ofDocument, ofFields_eq_map]
  rintro name rfl
  exact h name rfl

theorem lookup_ne_singleton (h : fields.lookup "$var" ≠ some (.str name)) :
    fields ≠ [("$var", .str name)] := by
  rintro rfl
  exact h List.lookup_cons_self

theorem eq_str_of_unmix (h : unmix v = .str name) : v = .str name := by
  cases v with
  | obj fields =>
    rw [unmix] at h
    split at h <;> cases h
  | arr items => cases h
  | _ => exact h

/-! ## What is lost -/

/-- What is read of a value is the value without the keys beside a variable. -/
theorem read_eq_ofDocument_unmix : read v = ofDocument (unmix v) := by
  induction v with
  | null | bool | num | str => rfl
  | arr items ih =>
    rw [read, unmix, ofDocument, readItems_eq_map, ofItems_eq_map, unmixItems_eq_map, List.map_map]
    exact congrArg list (List.map_congr_left ih)
  | obj fields ih =>
    by_cases h : ∃ name, fields.lookup "$var" = some (.str name)
    · obtain ⟨name, h⟩ := h
      rw [read_variable h, unmix, h]
      rfl
    · have h := not_exists.mp h
      -- No key is taken away here, and no value becomes a name that was none before.
      have hfields : ∀ name, (fields.map fun f => (f.1, unmix f.2)) ≠ [("$var", .str name)] := by
        intro name hsingle
        obtain ⟨⟨k, d⟩, rfl, hf⟩ := List.map_eq_singleton_iff.mp hsingle
        obtain ⟨rfl, hd⟩ := Prod.mk.inj hf
        have hd : d = .str name := eq_str_of_unmix hd
        exact h name (hd ▸ List.lookup_cons_self)
      rw [read_object h, unmix_object h, ofDocument_object hfields, List.map_map]
      exact congrArg object (List.map_congr_left fun f hf => congrArg (Prod.mk f.1) (ih f hf))

/-- The readings agree where variables stand alone. -/
theorem Unmixed.read_eq (h : Unmixed v) : read v = ofDocument v := by
  induction h with
  | null | bool | num | str => rfl
  | array _ ih =>
    rw [read, ofDocument, readItems_eq_map, ofItems_eq_map]
    exact congrArg list (List.map_congr_left ih)
  | alone => exact read_variable List.lookup_cons_self
  | object hname _ ih =>
    rw [read_object hname, ofDocument_object fun name => lookup_ne_singleton (hname name)]
    exact congrArg Argument.object
      (List.map_congr_left fun f hf => congrArg (Prod.mk f.1) (ih f hf))

/-! ## Texts of requests -/

/-- No object in a value repeats a key. -/
inductive KeysOnce : Document → Prop
  | null : KeysOnce .null
  | bool {b : Bool} : KeysOnce (.bool b)
  | num {n : Number} : KeysOnce (.num n)
  | str {t : String} : KeysOnce (.str t)
  | array {items : List Document} : (∀ d ∈ items, KeysOnce d) → KeysOnce (.arr items)
  | object {fields : List (String × Document)} :
      (fields.map (·.1)).Nodup → (∀ f ∈ fields, KeysOnce f.2) → KeysOnce (.obj fields)

theorem lastOfEach_of_nodup {α : Type} {entries : List (String × α)}
    (h : (entries.map (·.1)).Nodup) : Draft.lastOfEach entries = entries := by
  have hreverse : (entries.reverse.map (·.1)).Nodup := by
    rw [List.map_reverse]
    exact List.nodup_reverse.mpr h
  rw [Draft.lastOfEach, eraseDups_of_nodup h, List.filterMap_map]
  refine (List.filterMap_congr fun e he => ?_).trans List.filterMap_some
  rw [Function.comp_apply, lookup_of_mem hreverse (List.mem_reverse.mpr he)]
  rfl

theorem ofItemDrafts?_ofItems (h : ∀ d ∈ items, ofDraft? (.ofDocument d) = some (read d)) :
    ofItemDrafts? (Draft.ofItems items) = some (items.map read) := by
  induction items with
  | nil => rfl
  | cons d items ih =>
    rw [List.forall_mem_cons] at h
    rw [Draft.ofItems, ofItemDrafts?, h.1, ih h.2]
    rfl

theorem ofFieldDrafts?_ofFields (h : ∀ f ∈ fields, ofDraft? (.ofDocument f.2) = some (read f.2)) :
    ofFieldDrafts? (Draft.ofFields fields) = some (fields.map fun f => (f.1, read f.2)) := by
  induction fields with
  | nil => rfl
  | cons f fields ih =>
    rw [List.forall_mem_cons] at h
    rw [Draft.ofFields, ofFieldDrafts?, h.1, ih h.2]
    rfl

/-- Of a key that is not repeated there is one entry at most. -/
theorem filter_ofFields (h : (fields.map (·.1)).Nodup) (key : String) :
    (Draft.ofFields fields).filter (·.1 == some key) =
      (fields.lookup key).toList.map fun v => (some key, .ofDocument v) := by
  induction fields with
  | nil => rfl
  | cons f fields ih =>
    rw [List.map_cons, List.nodup_cons] at h
    rw [Draft.ofFields, List.filter_cons, ih h.2, lookup_cons_if]
    by_cases hkey : key = f.1
    · subst hkey
      simp [lookup_eq_none_iff.mpr h.1]
    · simp [hkey, Ne.symm hkey]

/-- Where no key is repeated, the text of an argument is read as its value. -/
theorem ofDraft?_ofDocument (h : KeysOnce d) : ofDraft? (.ofDocument d) = some (read d) := by
  induction h with
  | null | bool | num | str => rfl
  | array _ ih =>
    rw [Draft.ofDocument, ofDraft?, ofItemDrafts?_ofItems ih, read, readItems_eq_map]
    rfl
  | @object fields hnodup _ ih =>
    have hnames : ((fields.map fun f => (f.1, read f.2)).map (·.1)).Nodup := by
      rwa [List.map_map]
    rw [Draft.ofDocument, ofDraft?, ofFieldDrafts?_ofFields ih, filter_ofFields hnodup,
      Option.bind_eq_bind, Option.bind_some, lastOfEach_of_nodup hnames, read, readFields_eq_map]
    cases fields.lookup "$var" with
    | none => rfl
    | some v => cases v <;> rfl

/-- Two names do not make a variable. -/
example : ofDraft? (.obj false [(some "$var", .str (some "a")), (some "$var", .str (some "b"))]) =
    some (.object [("$var", .scalar (.str "b"))]) := rfl

/-! ## Without bindings -/

section
variable {α β : Type} {F G : α → Option β} {as : List α} (hnone : ∀ a, G a = none → F a = none)
include hnone

theorem length_filterMap_le : (as.filterMap F).length ≤ (as.filterMap G).length := by
  induction as with
  | nil => exact Nat.le_refl _
  | cons a as ih =>
    rw [List.filterMap_cons, List.filterMap_cons]
    cases hG : G a with
    | none =>
      rw [hnone a hG]
      exact ih
    | some d =>
      cases F a with
      | none => exact Nat.le_succ_of_le ih
      | some e => exact Nat.succ_le_succ ih

/-- Selections from one list that are equal select the same of each item, where one of them has
none wherever the other has none. -/
theorem eqOn_of_filterMap_eq (h : as.filterMap F = as.filterMap G) : ∀ a ∈ as, F a = G a := by
  induction as with
  | nil => exact fun _ ha => nomatch ha
  | cons a as ih =>
    have hhead : F a = G a ∧ as.filterMap F = as.filterMap G := by
      cases hG : G a with
      | none =>
        have hF := hnone a hG
        rw [List.filterMap_cons_none hF, List.filterMap_cons_none hG] at h
        exact ⟨hF, h⟩
      | some d =>
        rw [List.filterMap_cons_some hG] at h
        cases hF : F a with
        | none =>
          -- What is left is too short to make up for an item that is not selected.
          rw [List.filterMap_cons_none hF] at h
          have hlt := congrArg List.length h
          rw [List.length_cons] at hlt
          have hle : (as.filterMap F).length ≤ (as.filterMap G).length := length_filterMap_le hnone
          omega
        | some e =>
          rw [List.filterMap_cons_some hF] at h
          obtain ⟨hed, htail⟩ := List.cons.inj h
          exact ⟨congrArg some hed, htail⟩
    rintro b (_ | ⟨_, hb⟩)
    · exact hhead.1
    · exact ih hhead.2 b hb

end

/-- What is given by its value is nothing without bindings only as a variable. -/
theorem eq_alone_of_unbound (h : (ofDocument v).resolve? [] = none) :
    ∃ name, v = .obj [("$var", .str name)] := by
  unfold ofDocument at h
  split at h
  · cases h
  · exact ⟨_, rfl⟩
  · cases h
  · cases h

theorem read_unbound (h : (ofDocument v).resolve? [] = none) : (read v).resolve? [] = none := by
  obtain ⟨name, rfl⟩ := eq_alone_of_unbound h
  rw [read_variable List.lookup_cons_self]
  rfl

/-- In a list, where what has no value is `null`, the readings are told apart all the same. -/
theorem resolve_eq_of_getD
    (h : ((read v).resolve? []).getD .null = ((ofDocument v).resolve? []).getD .null) :
    (read v).resolve? [] = (ofDocument v).resolve? [] := by
  cases hgiven : (ofDocument v).resolve? [] with
  | none => exact read_unbound hgiven
  | some d =>
    cases hread : (read v).resolve? [] with
    | some e =>
      rw [hread, hgiven] at h
      exact congrArg some h
    | none =>
      rw [hread, hgiven] at h
      obtain rfl : .null = d := h
      cases v with
      | obj fields =>
        unfold ofDocument at hgiven
        split at hgiven <;> cases hgiven
      | _ => cases hread

/-- Readings that agree without bindings have lost nothing. -/
theorem unmixed_of_resolve (h : (read v).resolve? [] = (ofDocument v).resolve? []) :
    Unmixed v := by
  induction v with
  | null => exact .null
  | bool => exact .bool
  | num => exact .num
  | str => exact .str
  | arr items ih =>
    rw [read, ofDocument, resolve?, resolve?, readItems_eq_map, ofItems_eq_map,
      resolveItems_eq_map, resolveItems_eq_map, List.map_map, List.map_map] at h
    have hitems := List.map_inj_left.mp (Document.arr.inj (Option.some.inj h))
    exact .array fun d hd => ih d hd (resolve_eq_of_getD (hitems d hd))
  | obj fields ih =>
    by_cases hvar : ∃ name, fields.lookup "$var" = some (.str name)
    · obtain ⟨name, hvar⟩ := hvar
      rw [read_variable hvar] at h
      obtain ⟨name, hfields⟩ := eq_alone_of_unbound h.symm
      rw [hfields]
      exact .alone
    · have hvar := not_exists.mp hvar
      rw [read_object hvar, ofDocument_object fun name => lookup_ne_singleton (hvar name),
        resolve?, resolve?, resolveFields_eq_filterMap, resolveFields_eq_filterMap,
        List.filterMap_map, List.filterMap_map] at h
      have hagree := eqOn_of_filterMap_eq
        (fun f hf => Option.map_eq_none_iff.mpr (read_unbound (Option.map_eq_none_iff.mp hf)))
        (Document.obj.inj (Option.some.inj h))
      refine .object hvar fun f hf => ih f hf ?_
      exact Option.map_injective (fun _ _ heq => (Prod.mk.inj heq).2) (hagree f hf)

/-- The readings of a value have the same value under all bindings exactly where its variables
stand alone; what is read of any value is what the value without the other keys is given by. -/
theorem readings_agree_iff (v : Document) :
    read v = ofDocument (unmix v) ∧
      ((∀ vars, (read v).resolve? vars = (ofDocument v).resolve? vars) ↔ Unmixed v) :=
  ⟨read_eq_ofDocument_unmix,
    fun h => unmixed_of_resolve (h []), fun h vars => congrArg (resolve? vars) h.read_eq⟩

/-- A key beside a variable is lost from what is read, and kept in what is given. -/
theorem readings_differ_beside_variable :
    ¬ ∀ (v : Document) (vars : Fields), (read v).resolve? vars = (ofDocument v).resolve? vars := by
  intro h
  have hkey := h (.obj [("$var", .str "a"), ("x", .num (.int 1 (by decide) (by decide)))])
    [("a", .num (.int 5 (by decide) (by decide)))]
  cases hkey

end RelQuery.Argument

import RelQuery.Proofs.Filter.Descent
import RelQuery.Proofs.Filter.Nested

/-!
# Regrouped conjunctions

The conjuncts of a filter are written as the entries of one object, as the items of an array or of
`_andOp`, and in any nesting of these forms. A combination takes the operands of a nested one for
its own, and drops a copy wherever the first stands, so that every grouping that keeps the order
compiles to one tree. The same holds for `_orOp` inside `_orOp`.
-/

namespace RelQuery.Filter

variable {f g : Filter} {fs gs hs : List Filter} {k : Connective}

/-! ## Combinations of combinations -/

/-- Filters that are added without the copies among them are added as they are. -/
theorem append_append : append fs (append gs hs) = append (append fs gs) hs := by
  induction hs generalizing gs with
  | nil => rfl
  | cons h hs ih =>
    have hcons : ∀ fs, append fs (h :: hs) = append (append fs [h]) hs := fun fs => rfl
    have hstep : append fs (append gs [h]) = append (append fs gs) [h] := by
      by_cases hc : gs.contains h = true
      · obtain ⟨g, hg, hsame⟩ := List.contains_iff_exists_mem_beq.mp hc
        have hcopy : ∃ f ∈ append fs gs, same g f = true := exists_same_append hg
        obtain ⟨f, hf, hsame'⟩ := hcopy
        have hc' : (append fs gs).contains h = true :=
          List.contains_iff_exists_mem_beq.mpr ⟨f, hf, same_trans hsame hsame'⟩
        have hgs : append gs [h] = gs := if_pos hc
        have hfgs : append (append fs gs) [h] = append fs gs := if_pos hc'
        rw [hgs, hfgs]
      · have hgs : append gs [h] = gs ++ [h] := if_neg hc
        rw [hgs, append, List.foldl_append]
        rfl
    rw [hcons, hcons, ih, hstep]

theorem append_distinct : append fs (distinct gs) = append fs gs :=
  append_append

theorem distinct_append : distinct (fs ++ gs) = append (distinct fs) gs := List.foldl_append

theorem distinct_distinct : distinct (distinct fs) = distinct fs := append_distinct

/-- A combination contributes what is combined in it, without copies. -/
theorem parts_combine (h : ∀ f ∈ fs, f.Canonical) :
    parts k (combine k fs) = distinct (fs.flatMap (parts k)) := by
  unfold combine
  split
  · rename_i f heq
    have hf : f ∈ fs.flatMap (parts k) := mem_distinct (heq ▸ List.mem_cons_self)
    obtain ⟨f', hf', hf⟩ := List.mem_flatMap.mp hf
    exact (parts_of_ne ((h f' hf').parts hf).1).trans heq.symm
  · simp [parts]

theorem combine_congr
    (h : distinct (fs.flatMap (parts k)) = distinct (gs.flatMap (parts k))) :
    combine k fs = combine k gs := by
  unfold combine
  rw [h]

/-- Two lists of operands can be combined apart. -/
theorem combine_combine (hf : ∀ f ∈ fs, f.Canonical) (hg : ∀ g ∈ gs, g.Canonical) :
    combine k [combine k fs, combine k gs] = combine k (fs ++ gs) := by
  refine combine_congr ?_
  simp only [List.flatMap_cons, List.flatMap_nil, List.append_nil, List.flatMap_append,
    parts_combine hf, parts_combine hg, distinct_append, append_distinct, distinct_distinct]

section
variable {β : Type} {F : β → Except PlanError Filter} {xs ys : List β} {x : β}
  (hF : ∀ x f, F x = .ok f → f.Canonical)
include hF

theorem combine_mapM_append : combine k <$> (xs ++ ys).mapM F = (do
    let f ← combine k <$> xs.mapM F
    let g ← combine k <$> ys.mapM F
    return combine k [f, g]) := by
  have hcanonical : ∀ (xs : List β) fs, xs.mapM F = .ok fs → ∀ f ∈ fs, f.Canonical := by
    intro xs fs h f hf
    obtain ⟨x, -, hx⟩ := mem_of_mapM h hf
    exact hF x f hx
  rw [List.mapM_append]
  cases hfs : xs.mapM F with
  | error e => rfl
  | ok fs =>
    cases hgs : ys.mapM F with
    | error e => rfl
    | ok gs =>
      exact congrArg Except.ok
        (combine_combine (hcanonical xs fs hfs) (hcanonical ys gs hgs)).symm

theorem combine_mapM_cons : combine k <$> (x :: xs).mapM F = (do
    let f ← F x
    let g ← combine k <$> xs.mapM F
    return combine k [f, g]) := by
  have hsingle : combine k <$> [x].mapM F = F x := by
    rw [List.mapM_cons]
    cases hx : F x with
    | error e => rfl
    | ok f => exact congrArg Except.ok (combine_of_canonical (hF x f hx))
  rw [← List.singleton_append, combine_mapM_append hF, hsingle]

end

/-! ## Documents -/

/-- A document that holds the entries in order, in objects, arrays and `_andOp` of any nesting. -/
inductive Conjoins : List (String × Document) → Document → Prop
  | noEntries : Conjoins [] (.obj [])
  | noItems : Conjoins [] (.arr [])
  | entry : Conjoins es (.obj fields) → Conjoins (e :: es) (.obj (e :: fields))
  | group : Conjoins es d → Conjoins es' (.obj fields) →
      Conjoins (es ++ es') (.obj (("_andOp", d) :: fields))
  | item : Conjoins es d → Conjoins es' (.arr items) → Conjoins (es ++ es') (.arr (d :: items))

/-- Items that hold the documents in order, in arrays under `_orOp` of any nesting. -/
inductive Disjoins : List Document → List Document → Prop
  | nil : Disjoins [] []
  | item : Disjoins ds items → Disjoins (d :: ds) (d :: items)
  | group : Disjoins ds below → Disjoins ds' items →
      Disjoins (ds ++ ds') (.obj [("_orOp", .arr below)] :: items)

variable {s : Schema} {scope : Scope} {es es' fields : List (String × Document)}
  {d : Document} {ds items : List Document} {e : String × Document} {model : String} {m : Model}

theorem Conjoins.isBracket (h : Conjoins es d) : isBracket d = true := by cases h <;> rfl

theorem conjoins_entries (es : List (String × Document)) : Conjoins es (.obj es) := by
  induction es with
  | nil => exact .noEntries
  | cons e es ih => exact .entry ih

theorem conjoins_items (es : List (String × Document)) :
    Conjoins es (.arr (es.map fun e => .obj [e])) := by
  induction es with
  | nil => exact .noItems
  | cons e es ih =>
    have he : Conjoins [e] (.obj [e]) := .entry .noEntries
    exact .item he ih

theorem Conjoins.grouped (h : Conjoins es d) : Conjoins es (.obj [("_andOp", d)]) :=
  List.append_nil es ▸ .group h .noEntries

/-! ### Compiled in parts -/

theorem canonical_of_compileValue (h : compileValue s scope d = .ok f) : f.Canonical :=
  (kept_canonical.compositional s).compileValue h

theorem compileValue_entries_append : compileValue s scope (.obj (es ++ es')) = (do
    let f ← compileValue s scope (.obj es)
    let g ← compileValue s scope (.obj es')
    return all [f, g]) := by
  simp only [compileValue, compileFields_eq_mapM]
  exact combine_mapM_append fun e f h => canonical_of_compileEntry h

theorem compileValue_entries_cons : compileValue s scope (.obj (e :: es)) = (do
    let f ← compileEntry s scope e.1 e.2
    let g ← compileValue s scope (.obj es)
    return all [f, g]) := by
  simp only [compileValue, compileFields_eq_mapM]
  exact combine_mapM_cons fun e f h => canonical_of_compileEntry h

theorem combine_compileItems_append : combine k <$> compileItems s scope (ds ++ items) = (do
    let f ← combine k <$> compileItems s scope ds
    let g ← combine k <$> compileItems s scope items
    return combine k [f, g]) := by
  simp only [compileItems_eq_mapM]
  exact combine_mapM_append fun d f h => canonical_of_compileValue h

theorem combine_compileItems_cons : combine k <$> compileItems s scope (d :: items) = (do
    let f ← compileValue s scope d
    let g ← combine k <$> compileItems s scope items
    return combine k [f, g]) := by
  simp only [compileItems_eq_mapM]
  exact combine_mapM_cons fun d f h => canonical_of_compileValue h

theorem compileEntry_or : compileEntry s scope "_orOp" (.arr items) =
    combine .or <$> compileItems s scope items := rfl

section
variable (hn : scope.attr = none)
include hn

theorem compileValue_items : compileValue s scope (.arr items) =
    combine .and <$> compileItems s scope items := by
  simp only [compileValue, hn, Option.isNone_none, if_true]
  rfl

/-- At a model, `_andOp` says what stands under it. -/
theorem compileEntry_and (h : isBracket d = true) :
    compileEntry s scope "_andOp" d = compileValue s scope d := by
  cases d with
  | arr items => exact (compileValue_items hn).symm
  | obj fields =>
    rw [compileValue]
    rfl
  | _ => cases h

/-- A conjunction compiles as the object of its entries, however it is grouped. -/
theorem compileValue_of_conjoins (h : Conjoins es d) :
    compileValue s scope d = compileValue s scope (.obj es) := by
  induction h with
  | noEntries => rfl
  | noItems =>
    rw [compileValue_items hn, compileValue]
    rfl
  | entry _ ih => rw [compileValue_entries_cons, compileValue_entries_cons, ih]
  | group h _ ih ih' =>
    rw [compileValue_entries_cons, compileEntry_and hn h.isBracket, compileValue_entries_append, ih,
      ih']
  | item _ _ ih ih' =>
    rw [compileValue_items hn] at ih'
    rw [compileValue_items hn, combine_compileItems_cons, compileValue_entries_append, ih, ih']
    rfl

end

/-- A disjunction compiles as that of its operands, however it is grouped. -/
theorem combine_compileItems_of_disjoins (h : Disjoins ds items) :
    combine .or <$> compileItems s scope items = combine .or <$> compileItems s scope ds := by
  induction h with
  | nil => rfl
  | item _ ih => rw [combine_compileItems_cons, combine_compileItems_cons, ih]
  | group _ _ ih ih' =>
    rw [combine_compileItems_cons, compileValue_singleton, compileEntry_or,
      combine_compileItems_append, ih, ih']

/-! ## Regrouping -/

theorem compile_of_bracket (hm : s.model model = .ok m) (h : isBracket d = true) :
    compile s model d = compileValue s (.root m) d := by
  rw [compile, hm, ok_bind, if_pos h]

/-- Entries that compile one by one compile to one tree in every grouping: as one object, as an
array, under `_andOp`, and in any nesting of these; and their disjunction compiles to one tree in
any nesting of `_orOp`. -/
theorem compile_regrouped (hm : s.model model = .ok m)
    (hes : ∀ e ∈ es, ∃ f, compile s model (.obj [e]) = .ok f) :
    (∃ f, compile s model (.obj es) = .ok f ∧
      compile s model (.arr (es.map fun e => .obj [e])) = .ok f ∧
      compile s model (.obj [("_andOp", .arr (es.map fun e => .obj [e]))]) = .ok f ∧
      ∀ d, Conjoins es d → compile s model d = .ok f) ∧
    ∃ g, compile s model (.obj [("_orOp", .arr (es.map fun e => .obj [e]))]) = .ok g ∧
      ∀ items, Disjoins (es.map fun e => .obj [e]) items →
        compile s model (.obj [("_orOp", .arr items)]) = .ok g := by
  obtain ⟨fs, hfs⟩ : ∃ fs, compileItems s (.root m) (es.map fun e => .obj [e]) = .ok fs := by
    rw [compileItems_eq_mapM]
    refine exists_mapM fun d hd => ?_
    obtain ⟨e, he, rfl⟩ := List.mem_map.mp hd
    obtain ⟨f, hf⟩ := hes e he
    exact ⟨f, (compile_obj hm).symm.trans hf⟩
  have hitems : compile s model (.arr (es.map fun e => .obj [e])) = .ok (all fs) := by
    rw [compile_of_bracket hm rfl, compileValue_items rfl, hfs]
    rfl
  have hconj : ∀ d, Conjoins es d → compile s model d = .ok (all fs) := by
    intro d hd
    rw [← hitems, compile_of_bracket hm hd.isBracket, compile_of_bracket hm rfl,
      compileValue_of_conjoins rfl hd, compileValue_of_conjoins rfl (conjoins_items es)]
  have hor : ∀ items, compile s model (.obj [("_orOp", .arr items)]) =
      combine .or <$> compileItems s (.root m) items := fun items => by
    rw [compile_obj hm, compileValue_singleton, compileEntry_or]
  refine ⟨⟨all fs, hconj _ (conjoins_entries es), hitems, hconj _ (conjoins_items es).grouped,
    hconj⟩, any fs, ?_, fun items hitems => ?_⟩
  · rw [hor, hfs]
    rfl
  · rw [hor, combine_compileItems_of_disjoins hitems, hfs]
    rfl

/-! ### People of a name, without a key -/

/-- The entries apart, under one `_andOp` and the second in an array of its own. -/
theorem named_regrouped :
    (∀ e ∈ [("name", .str "Ada"), ("id", .null)],
      ∃ f, compile people "Person" (.obj [e]) = .ok f) ∧
    compile people "Person" (.obj [("name", .str "Ada"), ("id", .null)]) =
      .ok (.logical .and [named, keyless]) ∧
    compile people "Person" (.obj [("_andOp", .arr [.obj [("name", .str "Ada")],
      .arr [.obj [("id", .null)]]])]) = .ok (.logical .and [named, keyless]) ∧
    compile people "Person" (.obj [("_orOp", .arr [.obj [("name", .str "Ada")],
      .obj [("_orOp", .arr [.obj [("id", .null)]])]])]) =
        .ok (.logical .or [named, keyless]) := by
  have hcompile : compile people "Person" (.obj [("name", .str "Ada"), ("id", .null)]) =
      .ok (.logical .and [named, keyless]) := by
    simp only [compile, compileValue, compileFields]
    rfl
  have hany : compile people "Person" (.obj [("_orOp", .arr [.obj [("name", .str "Ada")],
      .obj [("id", .null)]])]) = .ok (.logical .or [named, keyless]) := by
    simp only [compile, compileValue, compileItems, compileFields]
    rfl
  have hes : ∀ e ∈ [("name", .str "Ada"), ("id", .null)],
      ∃ f, compile people "Person" (.obj [e]) = .ok f := by
    refine List.forall_mem_cons.mpr ⟨⟨named, ?_⟩, List.forall_mem_singleton.mpr ⟨keyless, ?_⟩⟩ <;>
      (simp only [compile, compileValue, compileFields]; rfl)
  obtain ⟨m, hm⟩ : ∃ m, people.model "Person" = .ok m := ⟨_, rfl⟩
  obtain ⟨⟨f, hf, -, -, hconj⟩, g, hg, hdisj⟩ := compile_regrouped hm hes
  cases hf.symm.trans hcompile
  cases hg.symm.trans hany
  have hname : Conjoins [("name", .str "Ada")] (.obj [("name", .str "Ada")]) := conjoins_entries _
  have hid : Conjoins [("id", .null)] (.arr [.obj [("id", .null)]]) := conjoins_items _
  exact ⟨hes, hcompile, hconj _ (.group (.item hname (.item hid .noItems)) .noEntries),
    hdisj _ (.item (.group (.item .nil) .nil))⟩

end RelQuery.Filter

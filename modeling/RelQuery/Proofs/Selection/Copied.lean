import RelQuery.Proofs.Selection.Inlined

/-!
# Selections that are written again

A copy of a run of selections, later in the same selection set at any depth, adds nothing: the
fields it stands for are merged into those that stand there already. Putting fragments in place
makes copies of copies, so it is enough to look at selection sets without fragments.
-/

namespace RelQuery

namespace Selection

open Relation

variable {info info' : ExecutionInfo} {s s' : Selection} {S S' T T' ss ss' out : List Selection}
  {name : String} {label : Option String} {arguments : List (String × Argument)}

/-- Two selections read the same. A field may have its response key written as a label or not. -/
inductive Same : Selection → Selection → Prop
  | refl (s : Selection) : Same s s
  | field {name : String} {label label' : Option String} {arguments : List (String × Argument)}
      {S : List Selection} : label.getD name = label'.getD name →
    Same (.field name label arguments S) (.field name label' arguments S)

/-- A run of selections is written again, later in a selection set at any depth. -/
inductive Copied : List Selection → List Selection → Prop
  | here (u v w : List Selection) {S S' : List Selection} : List.Forall₂ Same S S' →
    Copied (u ++ S ++ v ++ w) (u ++ S ++ v ++ S' ++ w)
  | field (u w : List Selection) {name : String} {label : Option String}
      {arguments : List (String × Argument)} {S S' : List Selection} : Copied S S' →
    Copied (u ++ .field name label arguments S :: w) (u ++ .field name label arguments S' :: w)
  | inline (u w : List Selection) {typeCondition : Option String} {S S' : List Selection} :
    Copied S S' → Copied (u ++ .inline typeCondition S :: w) (u ++ .inline typeCondition S' :: w)

/-- Runs of selections are written again, one after the other. -/
abbrev Copies : List Selection → List Selection → Prop := ReflTransGen Copied

/-! ## What copies keep -/

theorem Same.spreads_eq (h : Same s s') : spreads s = spreads s' := by
  cases h <;> rfl

theorem Same.height_eq (h : Same s s') : height s = height s' := by
  cases h <;> rfl

theorem spreadsAll_eq_of_same (h : List.Forall₂ Same S S') : spreadsAll S = spreadsAll S' := by
  induction h with
  | nil => rfl
  | cons hs _ ih => rw [spreadsAll, spreadsAll, hs.spreads_eq, ih]

theorem heightAll_eq_of_same (h : List.Forall₂ Same S S') : heightAll S = heightAll S' := by
  induction h with
  | nil => rfl
  | cons hs _ ih => rw [heightAll, heightAll, hs.height_eq, ih]

theorem Plain.of_same (h : List.Forall₂ Same S S') (hS : Plain S) : Plain S' := by
  induction h with
  | nil => exact .nil
  | cons hs _ ih =>
    cases hS with
    | field hsub hS =>
      cases hs with
      | refl => exact .field hsub (ih hS)
      | field => exact .field hsub (ih hS)

theorem Copied.mem_spreadsAll (h : Copied ss ss') :
    name ∈ spreadsAll ss' ↔ name ∈ spreadsAll ss := by
  induction h with
  | here u v w h =>
    simp only [spreadsAll_append, ← spreadsAll_eq_of_same h, List.mem_append]
    tauto
  | field u w _ ih => simp only [spreadsAll_append, spreadsAll, spreads, List.mem_append, ih]
  | inline u w _ ih => simp only [spreadsAll_append, spreadsAll, spreads, List.mem_append, ih]

theorem Copied.heightAll_eq (h : Copied ss ss') : heightAll ss' = heightAll ss := by
  induction h with
  | here u v w h =>
    simp only [heightAll_append, ← heightAll_eq_of_same h]
    omega
  | field u w _ ih => simp only [heightAll_append, heightAll, height, ih]
  | inline u w _ ih => simp only [heightAll_append, heightAll, height, ih]

theorem Plain.of_copied (h : Copied ss ss') (hss : Plain ss) : Plain ss' := by
  induction h with
  | here u v w h =>
    obtain ⟨huSv, hw⟩ := hss.of_append
    exact (huSv.append (.of_same h huSv.of_append.1.of_append.2)).append hw
  | field u w _ ih =>
    obtain ⟨hu, hfield⟩ := hss.of_append
    cases hfield with
    | field hsub hw => exact hu.append (.field (ih hsub) hw)
  | inline u w _ ih => cases hss.of_append.2

theorem Copies.mem_spreadsAll (h : Copies ss ss') :
    name ∈ spreadsAll ss' ↔ name ∈ spreadsAll ss := by
  induction h with
  | refl => exact Iff.rfl
  | tail _ h ih => exact h.mem_spreadsAll.trans ih

theorem Copies.heightAll_eq (h : Copies ss ss') : heightAll ss' = heightAll ss := by
  induction h with
  | refl => rfl
  | tail _ h ih => exact h.heightAll_eq.trans ih

theorem Plain.of_copies (h : Copies ss ss') (hss : Plain ss) : Plain ss' := by
  induction h with
  | refl => exact hss
  | tail _ h ih => exact .of_copied h ih

/-! ## Copies in their place -/

theorem Copied.append_left (u : List Selection) (h : Copied S S') : Copied (u ++ S) (u ++ S') := by
  cases h with
  | here u' v w h => simpa only [List.append_assoc] using Copied.here (u ++ u') v w h
  | field u' w h => simpa only [List.append_assoc] using Copied.field (u ++ u') w h
  | inline u' w h => simpa only [List.append_assoc] using Copied.inline (u ++ u') w h

theorem Copied.append_right (w : List Selection) (h : Copied S S') : Copied (S ++ w) (S' ++ w) := by
  cases h with
  | here u v w' h => simpa only [List.append_assoc] using Copied.here u v (w' ++ w) h
  | field u w' h => simpa using Copied.field u (w' ++ w) h
  | inline u w' h => simpa using Copied.inline u (w' ++ w) h

theorem Copies.append (hS : Copies S S') (hT : Copies T T') : Copies (S ++ T) (S' ++ T') :=
  (hS.lift (· ++ T) fun _ _ h => h.append_right T).trans
    (hT.lift (S' ++ ·) fun _ _ h => h.append_left S')

theorem Copies.field (hS : Copies S S') (hT : Copies T T') :
    Copies (.field name label arguments S :: T) (.field name label arguments S' :: T') := by
  have hfield : Copies [.field name label arguments S] [.field name label arguments S'] :=
    ReflTransGen.lift (p := Copied) (fun S => [Selection.field name label arguments S])
      (fun _ _ h => Copied.field [] [] h) S S' hS
  exact hfield.append hT

/-! ## Fields of a selection set without fragments -/

theorem matches_of_same {f g : Field} (h : Same f.toSelection g.toSelection) :
    f.Matches Eq g := by
  obtain ⟨name, label, arguments, S⟩ := f
  obtain ⟨name', label', arguments', S'⟩ := g
  cases h with
  | refl => exact ⟨rfl, rfl, rfl, rfl⟩
  | field hkey => exact ⟨rfl, hkey, rfl, rfl⟩

theorem forall₂_collected_here {u v w : List Selection} (h : List.Forall₂ Same S S')
    (hplain : Plain (u ++ S ++ v ++ w)) :
    ∃ fs fs' : List Field, u ++ S ++ v ++ w = fs.map Field.toSelection ∧
      u ++ S ++ v ++ S' ++ w = fs'.map Field.toSelection ∧
      List.Forall₂ (Field.Matches Copies) (Field.collected fs) (Field.collected fs') := by
  obtain ⟨huSv, hw⟩ := hplain.of_append
  obtain ⟨huS, hv⟩ := huSv.of_append
  obtain ⟨hu, hS⟩ := huS.of_append
  obtain ⟨us, rfl, -⟩ := hu.exists_fields
  obtain ⟨vs, rfl, -⟩ := hv.exists_fields
  obtain ⟨ws, rfl, -⟩ := hw.exists_fields
  obtain ⟨fs', rfl, -⟩ := (Plain.of_same h hS).exists_fields
  obtain ⟨fs, rfl, -⟩ := hS.exists_fields
  rw [List.forall₂_map_left_iff, List.forall₂_map_right_iff] at h
  have hrun : List.Forall₂ (Field.Matches Eq) fs fs' := h.imp fun _ _ => matches_of_same
  have hagain {U S V W : List Selection} : Copies (U ++ S ++ V ++ W) (U ++ S ++ V ++ S ++ W) :=
    .single (.here U V W (List.forall₂_same.mpr fun s _ => .refl s))
  exact ⟨us ++ fs ++ vs ++ ws, us ++ fs ++ vs ++ fs' ++ ws, by simp, by simp,
    Field.forall₂_collected_repeated (fun _ => .refl) hagain hrun⟩

/-- The fields of a copy agree with those of the original, and their selections are copies. -/
theorem Copied.forall₂_collected (h : Copied ss ss') (hss : Plain ss) :
    ∃ fs fs' : List Field, ss = fs.map Field.toSelection ∧ ss' = fs'.map Field.toSelection ∧
      List.Forall₂ (Field.Matches Copies) (Field.collected fs) (Field.collected fs') := by
  cases h with
  | here u v w h => exact forall₂_collected_here h hss
  | @field u w name label arguments S S' h =>
    obtain ⟨hu, hfield⟩ := hss.of_append
    obtain ⟨us, rfl, -⟩ := hu.exists_fields
    cases hfield with
    | field hS hw =>
      obtain ⟨ws, rfl, -⟩ := hw.exists_fields
      have hsame := Field.forall₂_matches_refl (R := Copies) fun _ => .refl
      refine ⟨us ++ ⟨name, label, arguments, S⟩ :: ws, us ++ ⟨name, label, arguments, S'⟩ :: ws,
        by simp [Field.toSelection], by simp [Field.toSelection], ?_⟩
      exact Field.forall₂_collected (fun h h' => h.append h')
        (List.rel_append (hsame us) (.cons ⟨rfl, rfl, rfl, .single h⟩ (hsame ws)))
  | inline u w h => cases hss.of_append.2

theorem Copies.forall₂_collected (h : Copies ss ss') (hss : Plain ss) :
    ∃ fs fs' : List Field, ss = fs.map Field.toSelection ∧ ss' = fs'.map Field.toSelection ∧
      List.Forall₂ (Field.Matches Copies) (Field.collected fs) (Field.collected fs') := by
  induction h with
  | refl =>
    obtain ⟨fs, rfl, -⟩ := hss.exists_fields
    exact ⟨fs, fs, rfl, rfl, Field.forall₂_matches_refl (fun _ => .refl) _⟩
  | tail hcopies h ih =>
    obtain ⟨fs, gs, rfl, rfl, hfields⟩ := ih
    obtain ⟨gs', fs', hgs, rfl, hfields'⟩ := h.forall₂_collected (.of_copies hcopies hss)
    cases List.map_injective_iff.mpr Field.toSelection_injective hgs
    exact ⟨fs, fs', rfl, rfl,
      Field.forall₂_matches_trans (fun h h' => h.trans h') hfields hfields'⟩

/-- Without fragments, copies simulate what they are copies of. -/
theorem simulates_copies :
    info.Simulates info' fun ss ss' => Plain ss ∧ Copies ss ss' := by
  rintro ss ss' ⟨hss, hcopies⟩
  obtain ⟨fs, fs', rfl, rfl, hfields⟩ := hcopies.forall₂_collected hss
  obtain ⟨fs₁, hfs₁, hplain⟩ := hss.exists_fields
  cases List.map_injective_iff.mpr Field.toSelection_injective hfs₁
  have hbelow : ∀ f ∈ Field.collected fs,
      Plain f.selections ∧ heightAll f.selections < heightAll (fs.map Field.toSelection) := by
    refine Field.forall_collected (P := fun S => Plain S ∧ heightAll S < heightAll _)
      (fun h h' => ⟨h.1.append h'.1, ?_⟩) fun f hf => ⟨hplain f hf, heightAll_lt_of_mem hf⟩
    rw [heightAll_append]
    exact max_lt h.2 h'.2
  refine ⟨_, _, ExecutionInfo.expand_map_toSelection, ExecutionInfo.expand_map_toSelection, ?_⟩
  exact ((List.forall₂_and_left _ _).mpr ⟨hbelow, hfields⟩).imp fun _ _ hfg =>
    hfg.2.imp fun hsub => ⟨⟨hfg.1.1, hsub⟩, hfg.1.2⟩

end Selection

namespace ExecutionInfo

open Selection Relation

variable {info info' : ExecutionInfo} {name : String} {S S' T T' ss ss' out : List Selection}

/-- Selections are written again in fragments. -/
structure Copies (info info' : ExecutionInfo) : Prop where
  bindings : info.bindings = info'.bindings
  fragments : List.Forall₂ (fun f f' => f.1 = f'.1 ∧ f.2.name = f'.2.name ∧
    Selection.Copies f.2.selections f'.2.selections) info.fragments info'.fragments

/-! ## Fragments in place of copies -/

theorem Inlines.exists_same (h : List.Forall₂ Same S S') (hS : info.Inlines S out) :
    ∃ out', info.Inlines S' out' ∧ List.Forall₂ Same out out' := by
  induction h generalizing out with
  | nil =>
    cases hS
    exact ⟨[], .nil, .nil⟩
  | @cons s _ S S' hs _ ih =>
    cases hs with
    | refl =>
      obtain ⟨l, r, hl, hr, rfl⟩ := Inlines.exists_append (S := [s]) (T := S) hS
      obtain ⟨r', hr', hsame⟩ := ih hr
      exact ⟨l ++ r', hl.append hr',
        List.rel_append (List.forall₂_same.mpr fun s _ => .refl s) hsame⟩
    | field hkey =>
      cases hS with
      | field hsub hr =>
        obtain ⟨r', hr', hsame⟩ := ih hr
        exact ⟨_, .field hsub hr', .cons (.field hkey) hsame⟩

/-- With fragments in place, a copy is a copy of what is in their place. -/
theorem Inlines.exists_copied (h : Copied ss ss') (hss : info.Inlines ss out) :
    ∃ out', info.Inlines ss' out' ∧ Selection.Copies out out' := by
  induction h generalizing out with
  | here u v w h =>
    obtain ⟨_, ow, huSv, hw, rfl⟩ := hss.exists_append
    obtain ⟨_, ov, huS, hv, rfl⟩ := huSv.exists_append
    obtain ⟨ou, oS, hu, hS, rfl⟩ := huS.exists_append
    obtain ⟨oS', hS', hsame⟩ := hS.exists_same h
    exact ⟨_, (huSv.append hS').append hw, .single (.here ou ov ow hsame)⟩
  | field u w h ih =>
    obtain ⟨ou, _, hu, hfield, rfl⟩ := hss.exists_append
    cases hfield with
    | field hS hw =>
      obtain ⟨oS', hS', hcopies⟩ := ih hS
      exact ⟨_, hu.append (.field hS' hw),
        Selection.Copies.append .refl (Selection.Copies.field hcopies .refl)⟩
  | inline u w h ih =>
    obtain ⟨ou, _, hu, hinline, rfl⟩ := hss.exists_append
    cases hinline with
    | inline hS hw =>
      obtain ⟨oS', hS', hcopies⟩ := ih hS
      exact ⟨_, hu.append (.inline hS' hw),
        Selection.Copies.append .refl (Selection.Copies.append hcopies .refl)⟩

theorem Inlines.exists_copies (h : Selection.Copies ss ss') (hss : info.Inlines ss out) :
    ∃ out', info.Inlines ss' out' ∧ Selection.Copies out out' := by
  induction h with
  | refl => exact ⟨out, hss, .refl⟩
  | tail _ h ih =>
    obtain ⟨out₁, h₁, hcopies⟩ := ih
    obtain ⟨out', h', hcopies'⟩ := h₁.exists_copied h
    exact ⟨out', h', hcopies.trans hcopies'⟩

/-! ## Copies in fragments -/

theorem Copies.rel_lookup (h : info.Copies info') (name : String) :
    Option.Rel (fun f f' => f.name = f'.name ∧ Selection.Copies f.selections f'.selections)
      (info.fragments.lookup name) (info'.fragments.lookup name) :=
  RelQuery.rel_lookup h.fragments

theorem Copies.spreads_iff (h : info.Copies info') {a b : String} :
    info'.Spreads a b ↔ info.Spreads a b := by
  constructor
  · rintro ⟨fragment', hfragment', hb⟩
    obtain ⟨fragment, hfragment, -, hcopies⟩ := exists_left_of_rel (h.rel_lookup a) hfragment'
    exact ⟨fragment, hfragment, hcopies.mem_spreadsAll.mp hb⟩
  · rintro ⟨fragment, hfragment, hb⟩
    obtain ⟨fragment', hfragment', -, hcopies⟩ := exists_right_of_rel (h.rel_lookup a) hfragment
    exact ⟨fragment', hfragment', hcopies.mem_spreadsAll.mpr hb⟩

theorem Copies.closed (h : info.Copies info') (hinfo : info.Closed) : info'.Closed where
  named name fragment' hfragment' := by
    obtain ⟨fragment, hfragment, hname, -⟩ := exists_left_of_rel (h.rel_lookup name) hfragment'
    rw [← hname]
    exact hinfo.named name fragment hfragment
  defined a b hab := by
    obtain ⟨fragment, hfragment⟩ :=
      Option.isSome_iff_exists.mp (hinfo.defined a b (h.spreads_iff.mp hab))
    obtain ⟨fragment', hfragment', -⟩ := exists_right_of_rel (h.rel_lookup b) hfragment
    exact Option.isSome_iff_exists.mpr ⟨fragment', hfragment'⟩
  acyclic name hname := hinfo.acyclic name (TransGen.mono (fun _ _ => h.spreads_iff.mp) _ _ hname)

/-- With fragments in place, copies in fragments are copies. -/
theorem Inlines.exists_of_copies (h : info.Copies info') (hss : info.Inlines ss out) :
    ∃ out', info'.Inlines ss out' ∧ Selection.Copies out out' := by
  induction hss with
  | nil => exact ⟨[], .nil, .refl⟩
  | field _ _ ihS ih =>
    obtain ⟨S'', hS, hcopiesS⟩ := ihS
    obtain ⟨out', hss, hcopies⟩ := ih
    exact ⟨_, .field hS hss, hcopiesS.field hcopies⟩
  | @spread name fragment _ _ _ hname _ _ ihS ih =>
    obtain ⟨sub₁, hsub₁, hcopies₁⟩ := ihS
    obtain ⟨fragment', hname', -, hfragment⟩ := exists_right_of_rel (h.rel_lookup name) hname
    obtain ⟨sub', hsub', hcopiesS⟩ := hsub₁.exists_copies hfragment
    obtain ⟨out', hss, hcopies⟩ := ih
    exact ⟨_, .spread hname' hsub' hss, Selection.Copies.append (hcopies₁.trans hcopiesS) hcopies⟩
  | inline _ _ ihS ih =>
    obtain ⟨sub', hS, hcopiesS⟩ := ihS
    obtain ⟨out', hss, hcopies⟩ := ih
    exact ⟨_, .inline hS hss, hcopiesS.append hcopies⟩

end ExecutionInfo

end RelQuery

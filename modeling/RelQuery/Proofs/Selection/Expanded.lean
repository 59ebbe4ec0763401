import Mathlib.Data.List.Perm.Subperm
import RelQuery.Proofs.Document.Distinct
import RelQuery.Proofs.Selection.Inlined

/-!
# What expansion does

`Run` is the expansion of a selection set as it goes: it collects fields one by one, enters a
fragment where it is spread, and fails where one is unknown or entered inside itself. No bound of
the depth is part of it. Every selection set has exactly one run, and `expand` finds its outcome.
It succeeds if every spread that it meets can be entered, and then collects the fields of the
selection set with fragments in place.
-/

namespace RelQuery

/-! ## Fields with one response key -/

namespace Field

variable {f g : Field} {fs : List Field} {key : String}

/-- Induction along collecting: from the fields under other response keys to all of them. -/
theorem induction_others {P : List Field → Prop} (nil : P [])
    (cons : ∀ f fs, P (others f.responseKey fs) → P (f :: fs)) (fs : List Field) : P fs := by
  induction hlength : fs.length using Nat.strongRecOn generalizing fs with
  | ind n ih =>
    cases fs with
    | nil => exact nil
    | cons f fs => exact cons f fs (ih _ (hlength ▸ Nat.lt_succ_of_le length_others_le) _ rfl)

theorem map_responseKey_others : (others key fs).map responseKey =
    (fs.map responseKey).filter fun key' => !key' == key := by
  rw [List.filter_map, others]
  congr 1
  exact List.filter_congr fun f _ => by simp [Bool.beq_eq_decide_eq]

theorem selectionsOf_others {key' : String} (h : key' ≠ key) :
    selectionsOf key' (others key fs) = selectionsOf key' fs := by
  rw [selectionsOf, others, List.filter_filter]
  congr 1
  exact List.filter_congr fun f _ => by
    by_cases hf : f.responseKey = key' <;> simp [hf, h]

theorem find?_others {key' : String} (h : key' ≠ key) :
    (others key fs).find? (·.responseKey = key') = fs.find? (·.responseKey = key') := by
  induction fs with
  | nil => rfl
  | cons f fs ih =>
    by_cases hf : f.responseKey = key
    · have hf' : f.responseKey ≠ key' := fun h' => h (h'.symm.trans hf)
      rw [← hf, others_cons_self, hf, ih, List.find?_cons_of_neg (by simpa using hf')]
    · rw [others, List.filter_cons_of_pos (by simpa using hf), List.find?_cons, List.find?_cons,
        ← others, ih]

/-- Fields are collected under their response keys, in order of the first under each. -/
theorem map_responseKey_collected (fs : List Field) :
    (collected fs).map responseKey = (fs.map responseKey).eraseDups := by
  induction fs using induction_others with
  | nil => rfl
  | cons f fs ih =>
    rw [collected_cons, List.map_cons, ih, map_responseKey_others, List.map_cons,
      List.eraseDups_cons]
    rfl

/-- A collected field is the first under its response key, with the selections of all of them. -/
theorem exists_first_of_mem_collected (h : f ∈ collected fs) :
    ∃ first, fs.find? (·.responseKey = f.responseKey) = some first ∧
      f = { first with selections := selectionsOf f.responseKey fs } := by
  induction fs using induction_others with
  | nil => cases h
  | cons g fs ih =>
    rw [collected_cons] at h
    rcases List.mem_cons.mp h with rfl | h
    · refine ⟨g, List.find?_cons_of_pos (by simp [responseKey]), ?_⟩
      exact congrArg (fun S => ({ g with selections := S } : Field)) selectionsOf_cons_self.symm
    · obtain ⟨first, hfind, heq⟩ := ih h
      have hne : f.responseKey ≠ g.responseKey := by
        have hmem := List.mem_of_find?_eq_some hfind
        have hkey : first.responseKey = f.responseKey := by simpa using List.find?_some hfind
        rw [← hkey]
        simpa using List.of_mem_filter hmem
      rw [find?_others hne] at hfind
      rw [selectionsOf_others hne] at heq
      refine ⟨first, ?_, ?_⟩
      · rw [List.find?_cons_of_neg (by simpa using hne.symm), hfind]
      · rw [selectionsOf_cons, if_neg hne.symm, List.nil_append]
        exact heq

/-- Fields under response keys of their own are collected as they are. -/
theorem collected_of_nodup (h : (fs.map responseKey).Nodup) : collected fs = fs := by
  induction fs with
  | nil => rfl
  | cons f fs ih =>
    obtain ⟨hf, h⟩ := List.nodup_cons.mp h
    have hkeys : ∀ g ∈ fs, g.responseKey ≠ f.responseKey :=
      fun g hg hkey => hf (hkey ▸ List.mem_map_of_mem hg)
    have hothers : others f.responseKey fs = fs :=
      List.filter_eq_self.mpr fun g hg => by simpa using hkeys g hg
    have hnone : selectionsOf f.responseKey fs = [] := by
      rw [selectionsOf, List.filter_eq_nil_iff.mpr fun g hg => by simpa using hkeys g hg]
      rfl
    rw [collected_cons, hothers, hnone, ih h, List.append_nil]

end Field

namespace ExecutionInfo

/-! ## Runs -/

/-- The fragment that a spread enters inside those named in `visiting`, or why it enters none. -/
def enter (info : ExecutionInfo) (visiting : List String) (name : String) :
    Except PlanError Fragment :=
  match info.fragments.lookup name with
  | none => malformed (.unknownFragment name)
  | some fragment =>
    if fragment.name ∈ visiting then malformed (.cyclicFragment name) else .ok fragment

/-- The expansion of selections inside the fragments named in `visiting`, from the fields collected
before to those collected after, or to the error it stops with. -/
inductive Run (info : ExecutionInfo) : List String → List Field → List Selection →
    Except PlanError (List Field) → Prop
  | nil : info.Run visiting out [] (.ok out)
  | field : info.Run visiting (Field.addTo out ⟨name, label, arguments, S⟩) ss r →
      info.Run visiting out (.field name label arguments S :: ss) r
  | inline : info.Run visiting out S (.ok out') → info.Run visiting out' ss r →
      info.Run visiting out (.inline typeCondition S :: ss) r
  | inlineError : info.Run visiting out S (.error e) →
      info.Run visiting out (.inline typeCondition S :: ss) (.error e)
  | spread : info.enter visiting name = .ok fragment →
      info.Run (fragment.name :: visiting) out fragment.selections (.ok out') →
      info.Run visiting out' ss r → info.Run visiting out (.spread name :: ss) r
  | spreadError : info.enter visiting name = .ok fragment →
      info.Run (fragment.name :: visiting) out fragment.selections (.error e) →
      info.Run visiting out (.spread name :: ss) (.error e)
  | refused : info.enter visiting name = .error e →
      info.Run visiting out (.spread name :: ss) (.error e)

/-- A spread that expansion meets, of the fragment `name` inside the fragments named in `chain`, the
innermost first: through inline fragments and spreads, but not in selections of fields. -/
inductive Meets (info : ExecutionInfo) : List String → List Selection → List String → String → Prop
  | here : info.Meets visiting (.spread name :: ss) visiting name
  | spread : info.fragments.lookup outer = some fragment →
      info.Meets (fragment.name :: visiting) fragment.selections chain name →
      info.Meets visiting (.spread outer :: ss) chain name
  | inline : info.Meets visiting S chain name →
      info.Meets visiting (.inline typeCondition S :: ss) chain name
  | later : info.Meets visiting ss chain name → info.Meets visiting (s :: ss) chain name

/-- Every spread that expansion meets names a fragment, and no chain of spreads inside each other
meets the name of a fragment twice. -/
def Expandable (info : ExecutionInfo) (ss : List Selection) : Prop :=
  ∀ chain name, info.Meets [] ss chain name →
    ∃ fragment, info.fragments.lookup name = some fragment ∧ (fragment.name :: chain).Nodup

/-- The fields of a selection set with every spread and every inline fragment replaced in place by
its selections, those in selections of fields left alone. -/
inductive InPlace (info : ExecutionInfo) : List Selection → List Field → Prop
  | nil : info.InPlace [] []
  | field : info.InPlace ss fs → info.InPlace (.field name label arguments S :: ss)
      (⟨name, label, arguments, S⟩ :: fs)
  | spread : info.fragments.lookup name = some fragment → info.InPlace fragment.selections gs →
      info.InPlace ss fs → info.InPlace (.spread name :: ss) (gs ++ fs)
  | inline : info.InPlace S gs → info.InPlace ss fs →
      info.InPlace (.inline typeCondition S :: ss) (gs ++ fs)

variable {info : ExecutionInfo} {visiting chain : List String} {name : String} {depth : Nat}
  {fragment : Fragment} {ss S : List Selection} {out out' fs gs : List Field}
  {r r' : Except PlanError (List Field)} {e : PlanError}

theorem enter_eq_ok : info.enter visiting name = .ok fragment ↔
    info.fragments.lookup name = some fragment ∧ fragment.name ∉ visiting := by
  unfold enter
  constructor
  · intro h
    split at h
    · cases h
    · rename_i hname
      split at h
      · cases h
      · rename_i hnew
        cases h
        exact ⟨hname, hnew⟩
  · rintro ⟨hname, hnew⟩
    rw [hname]
    exact if_neg hnew

theorem mem_of_enter_error (h : info.enter visiting name = .error e)
    (hname : info.fragments.lookup name = some fragment) : fragment.name ∈ visiting := by
  by_contra hnew
  cases h.symm.trans (enter_eq_ok.mpr ⟨hname, hnew⟩)

/-- There is at most one run. -/
theorem Run.unique (h : info.Run visiting out ss r) (h' : info.Run visiting out ss r') :
    r = r' := by
  induction h generalizing r' with
  | nil =>
    cases h'
    rfl
  | field _ ih =>
    cases h' with
    | field h' => exact ih h'
  | inline _ _ ihS ih =>
    cases h' with
    | inline hS h' =>
      cases ihS hS
      exact ih h'
    | inlineError hS => cases ihS hS
  | inlineError _ ihS =>
    cases h' with
    | inline hS => cases ihS hS
    | inlineError hS => exact ihS hS
  | spread hname _ _ ihS ih =>
    cases h' with
    | spread hname' hS h' =>
      cases hname.symm.trans hname'
      cases ihS hS
      exact ih h'
    | spreadError hname' hS =>
      cases hname.symm.trans hname'
      cases ihS hS
    | refused hname' => cases hname.symm.trans hname'
  | spreadError hname _ ihS =>
    cases h' with
    | spread hname' hS =>
      cases hname.symm.trans hname'
      cases ihS hS
    | spreadError hname' hS =>
      cases hname.symm.trans hname'
      exact ihS hS
    | refused hname' => cases hname.symm.trans hname'
  | refused hname =>
    cases h' with
    | spread hname' => cases hname.symm.trans hname'
    | spreadError hname' => cases hname.symm.trans hname'
    | refused hname' =>
      cases hname.symm.trans hname'
      rfl

/-! ### The depth suffices -/

theorem flatten_cons {s : Selection} : info.flatten depth visiting (s :: ss) = (do
    let fs ← info.flatten depth visiting [s]
    return fs ++ (← info.flatten depth visiting ss)) := by
  unfold flatten
  rw [Selection.fieldsWithAll_singleton, Selection.fieldsWithAll]

theorem flatten_refused (h : info.enter visiting name = .error e) :
    info.flatten depth visiting [.spread name] = .error e := by
  rw [flatten, Selection.fieldsWithAll_singleton, Selection.fieldsWith]
  unfold enter at h
  cases hname : info.fragments.lookup name with
  | none =>
    rw [hname] at h
    cases h
    rfl
  | some fragment =>
    rw [hname] at h
    dsimp only at h ⊢
    split at h
    · rename_i hvisiting
      cases h
      exact if_pos (by simpa using hvisiting)
    · cases h

/-- The names of fragments that are being visited, each once, with depth left for all others. -/
structure Room (info : ExecutionInfo) (depth : Nat) (visiting : List String) : Prop where
  nodup : visiting.Nodup
  subset : visiting ⊆ info.fragments.map (·.2.name)
  depth : info.fragments.length ≤ depth + visiting.length

theorem room_start (info : ExecutionInfo) : info.Room info.fragments.length [] :=
  ⟨.nil, nofun, by simp⟩

/-- There is depth left for a fragment that can be entered. -/
theorem Room.exists_enter (h : info.Room depth visiting)
    (henter : info.enter visiting name = .ok fragment) :
    ∃ depth', depth = depth' + 1 ∧ info.Room depth' (fragment.name :: visiting) := by
  obtain ⟨hname, hnew⟩ := enter_eq_ok.mp henter
  have hmem : fragment.name ∈ info.fragments.map (·.2.name) :=
    List.mem_map_of_mem (f := (·.2.name)) (mem_of_lookup hname)
  have hnodup : (fragment.name :: visiting).Nodup := List.nodup_cons.mpr ⟨hnew, h.nodup⟩
  have hsubset := List.cons_subset.mpr ⟨hmem, h.subset⟩
  have hle := (List.subperm_of_subset hnodup hsubset).length_le
  have hdepth := h.depth
  rw [List.length_map, List.length_cons] at hle
  obtain ⟨depth', rfl⟩ : ∃ d, depth = d + 1 := Nat.exists_eq_succ_of_ne_zero (by omega)
  exact ⟨depth', rfl, hnodup, hsubset, by rw [List.length_cons]; omega⟩

/-- With depth for all fragments that can be entered, flattening and collecting is a run. -/
theorem run_flatten (h : info.Room depth visiting) (ss : List Selection) (out : List Field) :
    info.Run visiting out ss ((·.foldl Field.addTo out) <$> info.flatten depth visiting ss) := by
  -- Entering a fragment takes depth; going on to what stands beside it does not.
  induction depth using Nat.strongRecOn generalizing visiting ss out with
  | ind depth within =>
    induction ss using Selection.induction_list generalizing out with
    | nil =>
      rw [flatten, Selection.fieldsWithAll]
      exact .nil
    | field name label arguments S ss _ ih =>
      have hfield := ih (Field.addTo out ⟨name, label, arguments, S⟩)
      rw [flatten_cons, flatten_field]
      cases hfs : info.flatten depth visiting ss <;> rw [hfs] at hfield <;> exact .field hfield
    | inline typeCondition S ss ihS ih =>
      have hS := ihS out
      rw [flatten_cons, flatten_inline]
      cases hgs : info.flatten depth visiting S with
      | error e =>
        rw [hgs] at hS
        exact .inlineError hS
      | ok gs =>
        have hss := ih (gs.foldl Field.addTo out)
        rw [hgs] at hS
        cases hfs : info.flatten depth visiting ss with
        | error e =>
          rw [hfs] at hss
          exact .inline hS hss
        | ok fs =>
          rw [hfs, map_ok, ← List.foldl_append] at hss
          exact .inline hS hss
    | spread name ss ih =>
      cases hname : info.enter visiting name with
      | error e =>
        rw [flatten_cons, flatten_refused hname]
        exact .refused hname
      | ok fragment =>
        obtain ⟨depth, rfl, hroom⟩ := h.exists_enter hname
        obtain ⟨hlookup, hnew⟩ := enter_eq_ok.mp hname
        have hS := within depth (Nat.lt_succ_self depth) hroom fragment.selections out
        rw [flatten_cons, flatten_spread hlookup hnew]
        cases hgs : info.flatten depth (fragment.name :: visiting) fragment.selections with
        | error e =>
          rw [hgs] at hS
          exact .spreadError hname hS
        | ok gs =>
          have hss := ih (gs.foldl Field.addTo out)
          rw [hgs] at hS
          cases hfs : info.flatten (depth + 1) visiting ss with
          | error e =>
            rw [hfs] at hss
            exact .spread hname hS hss
          | ok fs =>
            rw [hfs, map_ok, ← List.foldl_append] at hss
            exact .spread hname hS hss

/-- `expand` finds the outcome of the run. -/
theorem run_expand (info : ExecutionInfo) (ss : List Selection) :
    info.Run [] [] ss (info.expand ss) := by
  have h := run_flatten (room_start info) ss []
  rw [expand]
  cases hfs : info.flatten info.fragments.length [] ss <;> rw [hfs] at h <;> exact h

/-! ## Success -/

/-- A run that succeeds enters every spread it meets. -/
theorem Run.enters (h : info.Run visiting out ss r) (hnodup : visiting.Nodup) (hr : r = .ok out')
    (hmeets : info.Meets visiting ss chain name) :
    ∃ fragment, info.fragments.lookup name = some fragment ∧ (fragment.name :: chain).Nodup := by
  induction h generalizing out' with
  | nil => cases hmeets
  | field _ ih =>
    cases hmeets with
    | later hmeets => exact ih hnodup hr hmeets
  | inline _ _ ihS ih =>
    cases hmeets with
    | inline hmeets => exact ihS hnodup rfl hmeets
    | later hmeets => exact ih hnodup hr hmeets
  | spread henter _ _ ihS ih =>
    obtain ⟨hname, hnew⟩ := enter_eq_ok.mp henter
    have hnodup' := List.nodup_cons.mpr ⟨hnew, hnodup⟩
    cases hmeets with
    | here => exact ⟨_, hname, hnodup'⟩
    | spread hname' hmeets =>
      cases hname.symm.trans hname'
      exact ihS hnodup' rfl hmeets
    | later hmeets => exact ih hnodup hr hmeets
  | _ => cases hr

/-- A run that fails meets a spread that it cannot enter. -/
theorem Run.exists_blocked {e : PlanError} (h : info.Run visiting out ss r) (hr : r = .error e) :
    ∃ chain name, info.Meets visiting ss chain name ∧
      ∀ fragment, info.fragments.lookup name = some fragment → fragment.name ∈ chain := by
  induction h generalizing e with
  | nil => cases hr
  | field _ ih =>
    obtain ⟨chain, name, hmeets, hblocked⟩ := ih hr
    exact ⟨chain, name, .later hmeets, hblocked⟩
  | inline _ _ _ ih =>
    obtain ⟨chain, name, hmeets, hblocked⟩ := ih hr
    exact ⟨chain, name, .later hmeets, hblocked⟩
  | inlineError _ ihS =>
    obtain ⟨chain, name, hmeets, hblocked⟩ := ihS rfl
    exact ⟨chain, name, .inline hmeets, hblocked⟩
  | spread _ _ _ _ ih =>
    obtain ⟨chain, name, hmeets, hblocked⟩ := ih hr
    exact ⟨chain, name, .later hmeets, hblocked⟩
  | spreadError henter _ ihS =>
    obtain ⟨chain, name, hmeets, hblocked⟩ := ihS rfl
    exact ⟨chain, name, .spread (enter_eq_ok.mp henter).1 hmeets, hblocked⟩
  | refused henter => exact ⟨_, _, .here, fun _ hname => mem_of_enter_error henter hname⟩

/-- A selection set can be expanded exactly if every spread that expansion meets can be entered. -/
theorem exists_expand_iff : (∃ out, info.expand ss = .ok out) ↔ info.Expandable ss := by
  constructor
  · rintro ⟨out, hout⟩ chain name hmeets
    exact (run_expand info ss).enters .nil hout hmeets
  · intro h
    cases hout : info.expand ss with
    | ok out => exact ⟨out, rfl⟩
    | error e =>
      obtain ⟨chain, name, hmeets, hblocked⟩ := (run_expand info ss).exists_blocked hout
      obtain ⟨fragment, hname, hnodup⟩ := h chain name hmeets
      exact ((List.nodup_cons.mp hnodup).1 (hblocked fragment hname)).elim

/-! ## The fields -/

theorem InPlace.unique (h : info.InPlace ss fs) (h' : info.InPlace ss gs) : fs = gs := by
  induction h generalizing gs with
  | nil =>
    cases h'
    rfl
  | field _ ih =>
    cases h' with
    | field h' => rw [ih h']
  | spread hname _ _ ihS ih =>
    cases h' with
    | spread hname' hS h' =>
      cases hname.symm.trans hname'
      rw [ihS hS, ih h']
  | inline _ _ ihS ih =>
    cases h' with
    | inline hS h' => rw [ihS hS, ih h']

/-- A run that succeeds collects the fields with fragments in place. -/
theorem Run.exists_inPlace (h : info.Run visiting out ss r) (hr : r = .ok out') :
    ∃ fs, info.InPlace ss fs ∧ out' = fs.foldl Field.addTo out := by
  induction h generalizing out' with
  | nil =>
    cases hr
    exact ⟨[], .nil, rfl⟩
  | field _ ih =>
    obtain ⟨fs, hfs, rfl⟩ := ih hr
    exact ⟨_, .field hfs, rfl⟩
  | inline _ _ ihS ih =>
    obtain ⟨gs, hgs, rfl⟩ := ihS rfl
    obtain ⟨fs, hfs, rfl⟩ := ih hr
    exact ⟨gs ++ fs, .inline hgs hfs, List.foldl_append.symm⟩
  | spread henter _ _ ihS ih =>
    obtain ⟨gs, hgs, rfl⟩ := ihS rfl
    obtain ⟨fs, hfs, rfl⟩ := ih hr
    exact ⟨gs ++ fs, .spread (enter_eq_ok.mp henter).1 hgs hfs, List.foldl_append.symm⟩
  | _ => cases hr

theorem expand_of_inPlace (h : info.InPlace ss fs) (hout : info.expand ss = .ok out) :
    out = Field.collected fs := by
  obtain ⟨gs, hgs, rfl⟩ := (run_expand info ss).exists_inPlace hout
  rw [h.unique hgs]
  rfl

/-- Expansion ends with one outcome for every selection set, whatever the fragments spread. It
succeeds exactly if every spread it meets names a fragment and no chain of spreads meets a fragment
twice. Then the selection set has fields with fragments in place, and of these the first under each
response key, its label or else its name, is left, in their order, with the selections of all under
the key; expanding the result again changes nothing. -/
theorem expand_exact (info : ExecutionInfo) (ss : List Selection) :
    (∃! r, info.Run [] [] ss r) ∧ info.Run [] [] ss (info.expand ss) ∧
    ((∃ out, info.expand ss = .ok out) ↔ info.Expandable ss) ∧
    ∀ out, info.expand ss = .ok out → (∃! fs, info.InPlace ss fs) ∧
      (∀ fs, info.InPlace ss fs →
        out.map Field.responseKey = (fs.map Field.responseKey).eraseDups ∧
        ∀ f ∈ out, ∃ first, fs.find? (·.responseKey = f.responseKey) = some first ∧
          f = { first with selections := Field.selectionsOf f.responseKey fs }) ∧
      (out.map Field.responseKey).Nodup ∧
      (∀ f ∈ out, f.responseKey = f.label.getD f.name) ∧
      info.expand (out.map Field.toSelection) = .ok out := by
  refine ⟨⟨_, run_expand info ss, fun r hr => hr.unique (run_expand info ss)⟩, run_expand info ss,
    exists_expand_iff, fun out hout => ?_⟩
  obtain ⟨fs, hfs, -⟩ := (run_expand info ss).exists_inPlace hout
  cases expand_of_inPlace hfs hout
  have hkeys := Field.map_responseKey_collected fs
  have hnodup : ((Field.collected fs).map Field.responseKey).Nodup :=
    hkeys ▸ nodup_eraseDups _
  refine ⟨⟨fs, hfs, fun gs hgs => hgs.unique hfs⟩, fun gs hgs => ?_, hnodup, fun _ _ => rfl, ?_⟩
  · cases hgs.unique hfs
    exact ⟨hkeys, fun f hf => Field.exists_first_of_mem_collected hf⟩
  · rw [expand_map_toSelection, Field.collected_of_nodup hnodup]

/-! ### A card of a person, and fragments that spread each other -/

/-- The names of a person under a label, and the city twice, in two fragments. -/
def cards : ExecutionInfo where
  fragments := [
    ("Card", {
      name := "Card"
      selections := [.field "name" (some "title") [] [], .spread "Home"] }),
    ("Home", { name := "Home", selections := [.field "home" none [] [.field "city" none [] []]] }),
    ("Ping", { name := "Ping", selections := [.field "id" none [] [], .spread "Pong"] }),
    ("Pong", { name := "Pong", selections := [.inline none [.spread "Ping"]] })]

def cardSelections : List Selection :=
  [.field "home" none [] [.field "street" none [] []], .spread "Card", .spread "Home"]

def cardFields : List Field :=
  [{ name := "home", selections := [.field "street" none [] [], .field "city" none [] [],
      .field "city" none [] []] },
    { name := "name", label := some "title" }]

/-- One home is left of three, in its place, and the fragments of a cycle are refused. -/
theorem expand_cards : cards.expand cardSelections = .ok cardFields ∧
    cards.Expandable cardSelections ∧ cards.expand (cardFields.map Field.toSelection) =
      .ok cardFields ∧
    cards.expand [.spread "Ping"] = malformed (.cyclicFragment "Ping") ∧
    ¬cards.Expandable [.spread "Ping"] := by
  have hcard : cards.expand cardSelections = .ok cardFields := by
    simp [cards, cardSelections, cardFields, expand, flatten, Selection.fieldsWithAll,
      Selection.fieldsWith, List.lookup_cons, Field.addTo, Field.responseKey]
  have hping : cards.expand [.spread "Ping"] = malformed (.cyclicFragment "Ping") := by
    simp [cards, expand, flatten, Selection.fieldsWithAll, Selection.fieldsWith, List.lookup_cons,
      malformed]
  obtain ⟨-, -, hiff, hexact⟩ := expand_exact cards cardSelections
  obtain ⟨-, -, hiff', -⟩ := expand_exact cards [.spread "Ping"]
  refine ⟨hcard, hiff.mp ⟨_, hcard⟩, (hexact _ hcard).2.2.2.2, hping, fun h => ?_⟩
  obtain ⟨out, hout⟩ := hiff'.mpr h
  cases hping.symm.trans hout

end ExecutionInfo

end RelQuery

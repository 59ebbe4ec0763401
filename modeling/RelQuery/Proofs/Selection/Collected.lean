import Mathlib.Data.List.Forall2
import RelQuery.Proofs.Except
import RelQuery.Selection.Basic

/-!
# Fields with one response key

A selection set is flattened into fields, and fields with one response key become one, which has the
selections of all of them. That one field takes over a run of fields means that what stands later
under the same key is added to its selections, so fields that differ only there stay alike.
-/

namespace RelQuery

namespace Selection

mutual

/-- The fragments that a selection spreads, also in selections of fields. -/
def spreads : Selection → List String
  | .field _ _ _ selections => spreadsAll selections
  | .spread fragment => [fragment]
  | .inline _ selections => spreadsAll selections

def spreadsAll : List Selection → List String
  | [] => []
  | s :: ss => spreads s ++ spreadsAll ss

end

mutual

/-- How many fields of a selection stand inside each other, spreads left alone. -/
def height : Selection → Nat
  | .field _ _ _ selections => 1 + heightAll selections
  | .spread _ => 0
  | .inline _ selections => heightAll selections

def heightAll : List Selection → Nat
  | [] => 0
  | s :: ss => max (height s) (heightAll ss)

end

/-- Selections that hold no fragments. -/
inductive Plain : List Selection → Prop
  | nil : Plain []
  | field {name : String} {label : Option String} {arguments : List (String × Argument)}
      {S ss : List Selection} :
    Plain S → Plain ss → Plain (.field name label arguments S :: ss)

variable {ss S T : List Selection} {fs : List Field} {P : List Selection → Prop}

/-- Induction on a list of selections and on those inside of them. -/
theorem induction_list (nil : P [])
    (field : ∀ name label arguments S ss, P S → P ss → P (.field name label arguments S :: ss))
    (spread : ∀ fragment ss, P ss → P (.spread fragment :: ss))
    (inline : ∀ typeCondition S ss, P S → P ss → P (.inline typeCondition S :: ss)) (ss) : P ss :=
  @Selection.rec_1 (fun s => ∀ ss, P ss → P (s :: ss)) P
    (fun name label arguments S hS ss => field name label arguments S ss hS)
    (fun fragment ss => spread fragment ss)
    (fun typeCondition S hS ss => inline typeCondition S ss hS) nil
    (fun _ ss hs hss => hs ss hss) ss

@[simp] theorem spreadsAll_append : spreadsAll (S ++ T) = spreadsAll S ++ spreadsAll T := by
  induction S with
  | nil => rfl
  | cons s S ih => simp [spreadsAll, ih]

@[simp] theorem heightAll_append : heightAll (S ++ T) = max (heightAll S) (heightAll T) := by
  induction S with
  | nil => simp [heightAll]
  | cons s S ih => simp [heightAll, ih, Nat.max_assoc]

theorem heightAll_le_sizeAll : heightAll ss ≤ sizeAll ss := by
  induction ss using induction_list with
  | nil => exact Nat.le_refl _
  | field => simp only [heightAll, height, sizeAll, size]; omega
  | spread => simp only [heightAll, height, sizeAll, size]; omega
  | inline => simp only [heightAll, height, sizeAll, size]; omega

theorem fieldsWithAll_append {spread : String → Except PlanError (List Field)}
    {fs' : List Field} (hS : fieldsWithAll spread S = .ok fs)
    (hT : fieldsWithAll spread T = .ok fs') :
    fieldsWithAll spread (S ++ T) = .ok (fs ++ fs') := by
  induction S generalizing fs with
  | nil =>
    cases hS
    exact hT
  | cons s S ih =>
    obtain ⟨here, hhere, hS⟩ := bind_eq_ok.mp hS
    obtain ⟨rest, hrest, hS⟩ := bind_eq_ok.mp hS
    cases pure_eq_ok.mp hS
    rw [List.cons_append, fieldsWithAll, hhere, ok_bind, ih hrest, ok_bind, List.append_assoc]
    rfl

theorem fieldsWithAll_singleton {spread : String → Except PlanError (List Field)} {s : Selection} :
    fieldsWithAll spread [s] = fieldsWith spread s := by
  rw [fieldsWithAll]
  cases fieldsWith spread s with
  | error e => rfl
  | ok fs => exact congrArg Except.ok (List.append_nil fs)

theorem Plain.append (hS : Plain S) (hT : Plain T) : Plain (S ++ T) := by
  induction hS with
  | nil => exact hT
  | field hS _ _ ih => exact .field hS ih

theorem Plain.of_append (h : Plain (S ++ T)) : Plain S ∧ Plain T := by
  induction S with
  | nil => exact ⟨.nil, h⟩
  | cons s S ih =>
    cases h with
    | field hsub h => exact ⟨.field hsub (ih h).1, (ih h).2⟩

theorem Plain.exists_fields (h : Plain ss) :
    ∃ fs : List Field, ss = fs.map Field.toSelection ∧ ∀ f ∈ fs, Plain f.selections := by
  induction h with
  | nil => exact ⟨[], rfl, nofun⟩
  | @field name label arguments S ss hS _ _ ih =>
    obtain ⟨fs, rfl, hfs⟩ := ih
    exact ⟨⟨name, label, arguments, S⟩ :: fs, rfl, List.forall_mem_cons.mpr ⟨hS, hfs⟩⟩

theorem heightAll_lt_of_mem {f : Field} (hf : f ∈ fs) :
    heightAll f.selections < heightAll (fs.map Field.toSelection) := by
  induction fs with
  | nil => cases hf
  | cons g fs ih =>
    rw [List.map_cons, heightAll, Field.toSelection, height]
    rcases List.mem_cons.mp hf with rfl | hf
    · omega
    · have := ih hf
      omega

end Selection

variable {R : List Selection → List Selection → Prop} {P : List Selection → Prop} {f g : Field}
  {fs gs gs' : List Field} {key : String}

namespace Field

/-- Two fields agree but for their selections, which are related. A response key may be written as a
label or be the name. -/
structure Matches (R : List Selection → List Selection → Prop) (f g : Field) : Prop where
  name : f.name = g.name
  responseKey : f.responseKey = g.responseKey
  arguments : f.arguments = g.arguments
  selections : R f.selections g.selections

theorem Matches.imp {R' : List Selection → List Selection → Prop} (h : f.Matches R g)
    (H : R f.selections g.selections → R' f.selections g.selections) : f.Matches R' g :=
  ⟨h.name, h.responseKey, h.arguments, H h.selections⟩

theorem forall₂_matches_refl (h : ∀ ss, R ss ss) (fs : List Field) :
    List.Forall₂ (Matches R) fs fs :=
  List.forall₂_same.mpr fun _ _ => ⟨rfl, rfl, rfl, h _⟩

theorem forall₂_matches_trans (htrans : ∀ {S T U}, R S T → R T U → R S U)
    (h : List.Forall₂ (Matches R) fs gs) (h' : List.Forall₂ (Matches R) gs gs') :
    List.Forall₂ (Matches R) fs gs' := by
  induction h generalizing gs' with
  | nil =>
    cases h'
    exact .nil
  | cons hfg _ ih =>
    cases h' with
    | cons hgh h' =>
      exact .cons ⟨hfg.name.trans hgh.name, hfg.responseKey.trans hgh.responseKey,
        hfg.arguments.trans hgh.arguments, htrans hfg.selections hgh.selections⟩ (ih h')

/-- The fields of a flattened selection set, one for each response key. -/
def collected (fs : List Field) : List Field := fs.foldl addTo []

/-- The selections of all fields with a response key. -/
def selectionsOf (key : String) (fs : List Field) : List Selection :=
  (fs.filter (·.responseKey = key)).flatMap (·.selections)

/-- The fields with other response keys. -/
def others (key : String) (fs : List Field) : List Field := fs.filter (·.responseKey ≠ key)

@[simp] theorem selectionsOf_append :
    selectionsOf key (fs ++ gs) = selectionsOf key fs ++ selectionsOf key gs := by
  simp [selectionsOf]

@[simp] theorem others_append : others key (fs ++ gs) = others key fs ++ others key gs :=
  List.filter_append ..

theorem selectionsOf_cons : selectionsOf key (f :: fs) =
    (if f.responseKey = key then f.selections else []) ++ selectionsOf key fs := by
  by_cases hkey : f.responseKey = key <;> simp [selectionsOf, hkey]

theorem selectionsOf_cons_self :
    selectionsOf f.responseKey (f :: fs) = f.selections ++ selectionsOf f.responseKey fs := by
  rw [selectionsOf_cons, if_pos rfl]

theorem others_cons_self : others f.responseKey (f :: fs) = others f.responseKey fs := by
  simp [others]

theorem length_others_le : (others key fs).length ≤ fs.length := List.length_filter_le ..

theorem toSelection_injective : Function.Injective toSelection := by
  intro f g h
  cases f
  cases g
  cases h
  rfl

/-! ## What one field takes over -/

/-- The first field takes over all that stands under its response key. -/
theorem foldl_addTo_cons : fs.foldl addTo (g :: gs) =
    { g with selections := g.selections ++ selectionsOf g.responseKey fs } ::
      (others g.responseKey fs).foldl addTo gs := by
  induction fs generalizing g gs with
  | nil => simp [selectionsOf, others]
  | cons f fs ih =>
    rw [List.foldl_cons, addTo]
    by_cases hkey : g.responseKey = f.responseKey
    · rw [if_pos hkey, ih, hkey, selectionsOf_cons_self, others_cons_self, ← List.append_assoc]
      rw [show ({ g with selections := g.selections ++ f.selections } : Field).responseKey =
        f.responseKey from hkey]
    · have hkey' : f.responseKey ≠ g.responseKey := Ne.symm hkey
      rw [if_neg hkey, ih]
      simp [selectionsOf, others, hkey']

theorem collected_cons : collected (f :: fs) =
    { f with selections := f.selections ++ selectionsOf f.responseKey fs } ::
      collected (others f.responseKey fs) :=
  foldl_addTo_cons

section
variable (happ : ∀ {S S' T T'}, R S S' → R T T' → R (S ++ T) (S' ++ T'))
include happ

theorem forall₂_addTo (h : List.Forall₂ (Matches R) gs gs') (hf : f.Matches R g) :
    List.Forall₂ (Matches R) (addTo gs f) (addTo gs' g) := by
  induction h with
  | nil => exact .cons hf .nil
  | @cons a b as bs hab h ih =>
    rw [addTo, addTo, ← hab.responseKey, ← hf.responseKey]
    split
    · exact .cons ⟨hab.name, hab.responseKey, hab.arguments, happ hab.selections hf.selections⟩ h
    · exact .cons hab ih

/-- Fields that are alike are collected alike. -/
theorem forall₂_collected (h : List.Forall₂ (Matches R) fs gs) :
    List.Forall₂ (Matches R) (collected fs) (collected gs) :=
  List.rel_foldl (P := List.Forall₂ (Matches R)) (R := Matches R)
    (fun _ _ h _ _ hf => forall₂_addTo happ h hf) .nil h

end

theorem forall_collected (happ : ∀ {S T}, P S → P T → P (S ++ T))
    (h : ∀ f ∈ fs, P f.selections) : ∀ f ∈ collected fs, P f.selections := by
  have hsame : List.Forall₂ (Matches fun S _ => P S) fs fs :=
    List.forall₂_same.mpr fun f hf => ⟨rfl, rfl, rfl, h f hf⟩
  have hcollected := forall₂_collected happ hsame
  exact fun f hf => (List.forall₂_same.mp hcollected f hf).selections

/-! ## Fields that are written again -/

theorem selectionsOf_congr (h : List.Forall₂ (Matches Eq) fs gs) :
    selectionsOf key fs = selectionsOf key gs := by
  induction h with
  | nil => rfl
  | cons hfg _ ih => rw [selectionsOf_cons, selectionsOf_cons, hfg.responseKey, hfg.selections, ih]

theorem forall₂_others (h : List.Forall₂ (Matches R) fs gs) :
    List.Forall₂ (Matches R) (others key fs) (others key gs) :=
  List.rel_filter (fun _ _ hfg => by simp [hfg.responseKey]) h

theorem forall₂_collected_cons
    (h : R (f.selections ++ selectionsOf f.responseKey fs)
      (f.selections ++ selectionsOf f.responseKey gs))
    (hothers : List.Forall₂ (Matches R) (collected (others f.responseKey fs))
      (collected (others f.responseKey gs))) :
    List.Forall₂ (Matches R) (collected (f :: fs)) (collected (f :: gs)) := by
  rw [collected_cons, collected_cons]
  exact .cons ⟨rfl, rfl, rfl, h⟩ hothers

/-- A run of fields that is written again later adds nothing but selections that stand there
already. -/
theorem forall₂_collected_repeated {u v w fs fs' : List Field} (hrefl : ∀ S, R S S)
    (hrepeat : ∀ {U S V W}, R (U ++ S ++ V ++ W) (U ++ S ++ V ++ S ++ W))
    (h : List.Forall₂ (Matches Eq) fs fs') :
    List.Forall₂ (Matches R) (collected (u ++ fs ++ v ++ w))
      (collected (u ++ fs ++ v ++ fs' ++ w)) := by
  -- the first field takes over what stands under its key, and the others are a shorter such list
  induction hlength : (u ++ fs).length using Nat.strongRecOn generalizing u v w fs fs' with
  | ind n ih =>
    cases u with
    | cons f u =>
      have hlt : (others f.responseKey u ++ others f.responseKey fs).length < n := by
        rw [← hlength, ← others_append]
        exact Nat.lt_succ_of_le length_others_le
      refine forall₂_collected_cons (f := f) ?_ ?_
      · simpa [← selectionsOf_congr h] using hrepeat (U := f.selections ++ _)
      · simpa using ih _ hlt (forall₂_others h) rfl
    | nil =>
      cases h with
      | nil =>
        simp only [List.append_nil, List.nil_append]
        exact forall₂_matches_refl hrefl _
      | @cons f g fs fs' hfg h =>
        have hg (more : List Field) : selectionsOf f.responseKey (g :: more) =
            f.selections ++ selectionsOf f.responseKey more := by
          rw [selectionsOf_cons, if_pos hfg.responseKey.symm, hfg.selections]
        have hothers (more : List Field) :
            others f.responseKey (g :: more) = others f.responseKey more := by
          rw [hfg.responseKey, others_cons_self]
        have hlt : (others f.responseKey fs).length < n := by
          rw [← hlength]
          exact Nat.lt_succ_of_le length_others_le
        refine forall₂_collected_cons (f := f) ?_ ?_
        · simpa [hg, ← selectionsOf_congr h] using hrepeat (U := []) (S := f.selections ++ _)
        · simpa [hothers] using ih (u := []) _ hlt (forall₂_others h) rfl

end Field

end RelQuery

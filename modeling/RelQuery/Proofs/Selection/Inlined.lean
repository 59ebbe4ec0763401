import Mathlib.Algebra.Order.BigOperators.Group.List
import Mathlib.Algebra.Order.Ring.Nat
import Mathlib.Logic.Relation
import RelQuery.Proofs.Document.Fields
import RelQuery.Proofs.Selection.Collected

/-!
# Selection sets with fragments in place

A selection set whose fragments are all defined and do not reach themselves is the same tree of
fields as the one with every spread and every inline fragment replaced by its selections. Going
through spreads and fields alike, no fragment is entered inside itself, so the sizes of the
fragments bound how deep the fields stand.
-/

namespace RelQuery

namespace ExecutionInfo

open Selection Relation

variable {info : ExecutionInfo} {visiting : List String} {w : Fragment → Nat} {name : String}
  {fragment : Fragment} {S T ss out : List Selection} {fs gs : List Field} {depth : Nat}

/-- A fragment spreads another one, at its own level or in selections of its fields. -/
def Spreads (info : ExecutionInfo) (a b : String) : Prop :=
  ∃ fragment, info.fragments.lookup a = some fragment ∧ b ∈ spreadsAll fragment.selections

/-- All fragments are defined, under their own names, and none reaches itself. -/
structure Closed (info : ExecutionInfo) : Prop where
  named : ∀ name fragment, info.fragments.lookup name = some fragment → fragment.name = name
  defined : ∀ a b, info.Spreads a b → (info.fragments.lookup b).isSome
  acyclic : ∀ name, ¬ TransGen info.Spreads name name

/-- Every spread and every inline fragment, at any depth, replaced in place by its selections. -/
inductive Inlines (info : ExecutionInfo) : List Selection → List Selection → Prop
  | nil : info.Inlines [] []
  | field {name : String} {label : Option String} {arguments : List (String × Argument)}
      {S S' ss out : List Selection} :
    info.Inlines S S' → info.Inlines ss out →
    info.Inlines (.field name label arguments S :: ss) (.field name label arguments S' :: out)
  | spread {name : String} {fragment : Fragment} {sub ss out : List Selection} :
    info.fragments.lookup name = some fragment → info.Inlines fragment.selections sub →
    info.Inlines ss out → info.Inlines (.spread name :: ss) (sub ++ out)
  | inline {typeCondition : Option String} {S sub ss out : List Selection} :
    info.Inlines S sub → info.Inlines ss out →
    info.Inlines (.inline typeCondition S :: ss) (sub ++ out)

/-! ## Inside fragments -/

/-- Selections stand inside fragments: all that they spread is reached from each of these. -/
def Inside (info : ExecutionInfo) (visiting : List String) (ss : List Selection) : Prop :=
  ∀ a ∈ visiting, ∀ b ∈ spreadsAll ss, TransGen info.Spreads a b

/-- A measure of the fragments that can still be entered. -/
def room (info : ExecutionInfo) (w : Fragment → Nat) (visiting : List String) : Nat :=
  (info.fragments.map fun f => if f.1 ∈ visiting then 0 else w f.2).sum

theorem Inside.mono (h : info.Inside visiting ss) (hsub : spreadsAll S ⊆ spreadsAll ss) :
    info.Inside visiting S :=
  fun a ha b hb => h a ha b (hsub hb)

theorem Inside.enter (h : info.Inside visiting ss) (hname : name ∈ spreadsAll ss)
    (hfragment : info.fragments.lookup name = some fragment) :
    info.Inside (name :: visiting) fragment.selections := by
  intro a ha b hb
  have hb : info.Spreads name b := ⟨fragment, hfragment, hb⟩
  rcases List.mem_cons.mp ha with rfl | ha
  · exact .single hb
  · exact (h a ha name hname).tail hb

theorem Inside.notMem (h : info.Inside visiting ss) (hinfo : info.Closed)
    (hname : name ∈ spreadsAll ss) : name ∉ visiting :=
  fun hvisiting => hinfo.acyclic name (h name hvisiting name hname)

theorem inside_nil : info.Inside [] ss := nofun

@[simp] theorem room_nil : info.room w [] = (info.fragments.map fun f => w f.2).sum := by
  simp [room]

/-- Entering a fragment takes its share of the room. -/
theorem room_cons_le (hfragment : info.fragments.lookup name = some fragment)
    (hname : name ∉ visiting) :
    info.room w (name :: visiting) + w fragment ≤ info.room w visiting := by
  obtain ⟨before, after, hfragments⟩ := List.append_of_mem (mem_of_lookup hfragment)
  have hle (fs : List (String × Fragment)) :
      (fs.map fun f => if f.1 ∈ name :: visiting then 0 else w f.2).sum ≤
        (fs.map fun f => if f.1 ∈ visiting then 0 else w f.2).sum := by
    refine List.sum_le_sum fun f _ => ?_
    split
    · exact Nat.zero_le _
    · rename_i hf
      rw [if_neg fun hmem => hf (List.mem_cons_of_mem _ hmem)]
  have hbefore := hle before
  have hafter := hle after
  simp only [room, hfragments, List.map_append, List.map_cons, List.sum_append, List.sum_cons,
    if_pos List.mem_cons_self, if_neg hname]
  omega

/-! ## The fields of a selection set -/

theorem flatten_append {fs' : List Field} (hS : info.flatten depth visiting S = .ok fs)
    (hT : info.flatten depth visiting T = .ok fs') :
    info.flatten depth visiting (S ++ T) = .ok (fs ++ fs') := by
  rw [flatten] at hS hT ⊢
  exact fieldsWithAll_append hS hT

theorem flatten_field {arguments : List (String × Argument)} {label : Option String} :
    info.flatten depth visiting [.field name label arguments S] =
      .ok [⟨name, label, arguments, S⟩] := by
  rw [flatten, fieldsWithAll_singleton, fieldsWith]

theorem flatten_inline {typeCondition : Option String} :
    info.flatten depth visiting [.inline typeCondition S] = info.flatten depth visiting S := by
  unfold flatten
  rw [fieldsWithAll_singleton, fieldsWith]

theorem flatten_spread (hname : info.fragments.lookup name = some fragment)
    (hvisiting : fragment.name ∉ visiting) : info.flatten (depth + 1) visiting [.spread name] =
      info.flatten depth (fragment.name :: visiting) fragment.selections := by
  rw [flatten, fieldsWithAll_singleton, fieldsWith, hname]
  exact if_neg (by simpa using hvisiting)

theorem flatten_map_toSelection :
    info.flatten depth visiting (fs.map Field.toSelection) = .ok fs := by
  induction fs with
  | nil => rw [List.map_nil, flatten, fieldsWithAll]
  | cons f fs ih => exact flatten_append flatten_field ih

theorem expand_of_flatten (h : info.flatten info.fragments.length [] ss = .ok fs) :
    info.expand ss = .ok (Field.collected fs) := by
  rw [expand, h]
  rfl

theorem expand_map_toSelection :
    info.expand (fs.map Field.toSelection) = .ok (Field.collected fs) :=
  expand_of_flatten flatten_map_toSelection

/-! ## Fields in place of fragments -/

theorem Inlines.spread_singleton (hname : info.fragments.lookup name = some fragment)
    (h : info.Inlines fragment.selections out) : info.Inlines [.spread name] out := by
  simpa using Inlines.spread hname h .nil

theorem Inlines.append (hS : info.Inlines S out) {out' : List Selection}
    (hT : info.Inlines T out') : info.Inlines (S ++ T) (out ++ out') := by
  induction hS with
  | nil => exact hT
  | field hsub _ _ ih => exact .field hsub ih
  | spread hname hsub _ _ ih =>
    rw [List.append_assoc]
    exact .spread hname hsub ih
  | inline hsub _ _ ih =>
    rw [List.append_assoc]
    exact .inline hsub ih

theorem Inlines.exists_append (h : info.Inlines (S ++ T) out) :
    ∃ l r, info.Inlines S l ∧ info.Inlines T r ∧ out = l ++ r := by
  induction S generalizing out with
  | nil => exact ⟨[], out, .nil, h, rfl⟩
  | cons s S ih =>
    cases h with
    | field hsub h =>
      obtain ⟨l, r, hl, hr, rfl⟩ := ih h
      exact ⟨_, r, .field hsub hl, hr, rfl⟩
    | spread hname hsub h =>
      obtain ⟨l, r, hl, hr, rfl⟩ := ih h
      exact ⟨_, r, .spread hname hsub hl, hr, (List.append_assoc ..).symm⟩
    | inline hsub h =>
      obtain ⟨l, r, hl, hr, rfl⟩ := ih h
      exact ⟨_, r, .inline hsub hl, hr, (List.append_assoc ..).symm⟩

theorem Inlines.plain (h : info.Inlines ss out) : Plain out := by
  induction h with
  | nil => exact .nil
  | field _ _ ihS ih => exact .field ihS ih
  | spread _ _ _ ihS ih => exact ihS.append ih
  | inline _ _ ihS ih => exact ihS.append ih

section
variable (hinfo : info.Closed)
include hinfo

/-- Fragments that are defined and do not reach themselves can be put in place. -/
theorem exists_inlines (hinside : info.Inside visiting ss)
    (hdefined : ∀ name ∈ spreadsAll ss, (info.fragments.lookup name).isSome) :
    ∃ out, info.Inlines ss out := by
  -- a spread takes room, and all else is inside of the list
  induction hroom : info.room (fun _ => 1) visiting using Nat.strongRecOn
    generalizing visiting ss with
  | ind n enter =>
    induction ss using induction_list with
    | nil => exact ⟨[], .nil⟩
    | field name label arguments S ss ihS ih =>
      simp only [spreadsAll, spreads, List.forall_mem_append] at hdefined
      obtain ⟨S', hS⟩ := ihS (hinside.mono (by simp [spreadsAll, spreads])) hdefined.1
      obtain ⟨out, h⟩ := ih (hinside.mono (by simp [spreadsAll])) hdefined.2
      exact ⟨_, .field hS h⟩
    | spread name ss ih =>
      have hmem : name ∈ spreadsAll (.spread name :: ss) := List.mem_cons_self
      obtain ⟨fragment, hname⟩ := Option.isSome_iff_exists.mp (hdefined name hmem)
      have hlt := room_cons_le (w := fun _ => 1) hname (hinside.notMem hinfo hmem)
      obtain ⟨sub, hsub⟩ := enter _ (hroom ▸ hlt) (hinside.enter hmem hname)
        (fun b hb => hinfo.defined name b ⟨fragment, hname, hb⟩) rfl
      obtain ⟨out, h⟩ := ih (hinside.mono (by simp [spreadsAll]))
        (fun b hb => hdefined b (List.mem_cons_of_mem _ hb))
      exact ⟨_, .spread hname hsub h⟩
    | inline typeCondition S ss ihS ih =>
      simp only [spreadsAll, spreads, List.forall_mem_append] at hdefined
      obtain ⟨sub, hS⟩ := ihS (hinside.mono (by simp [spreadsAll, spreads])) hdefined.1
      obtain ⟨out, h⟩ := ih (hinside.mono (by simp [spreadsAll])) hdefined.2
      exact ⟨_, .inline hS h⟩

/-- No field stands deeper than there are fields in the selections and in fragments that can still
be entered. -/
theorem heightAll_le (h : info.Inlines ss out) (hinside : info.Inside visiting ss) :
    heightAll out ≤ sizeAll ss + info.room (fun f => sizeAll f.selections) visiting := by
  induction h generalizing visiting with
  | nil => exact Nat.zero_le _
  | field hS h ihS ih =>
    have hleS := ihS (hinside.mono (by simp [spreadsAll, spreads]))
    have hle := ih (hinside.mono (by simp [spreadsAll]))
    simp only [heightAll, height, sizeAll, size]
    omega
  | @spread name fragment sub ss out hname hsub h ihS ih =>
    have hmem : name ∈ spreadsAll (.spread name :: ss) := List.mem_cons_self
    have hleS := ihS (hinside.enter hmem hname)
    have hle := ih (hinside.mono (by simp [spreadsAll]))
    have hroom := room_cons_le (w := fun f => sizeAll f.selections) hname
      (hinside.notMem hinfo hmem)
    simp only [heightAll_append, sizeAll, size]
    omega
  | inline hS h ihS ih =>
    have hleS := ihS (hinside.mono (by simp [spreadsAll, spreads]))
    have hle := ih (hinside.mono (by simp [spreadsAll]))
    simp only [heightAll_append, sizeAll, size]
    omega

/-- A selection set is flattened into the fields of the one with fragments in place, but for what
their selections still hold of fragments. -/
theorem flatten_of_inlines (h : info.Inlines ss out) (hinside : info.Inside visiting ss)
    (hroom : info.room (fun _ => 1) visiting ≤ depth) :
    ∃ fs gs, info.flatten depth visiting ss = .ok fs ∧ out = gs.map Field.toSelection ∧
      List.Forall₂ (Field.Matches fun S' S => info.Inlines S S') gs fs := by
  induction h generalizing visiting depth with
  | nil => exact ⟨[], [], by rw [flatten, fieldsWithAll], rfl, .nil⟩
  | @field name label arguments S S' ss out hS h ihS ih => 
    obtain ⟨fs, gs, hfs, rfl, hrel⟩ := ih (hinside.mono (by simp [spreadsAll])) hroom
    exact ⟨⟨name, label, arguments, S⟩ :: fs, ⟨name, label, arguments, S'⟩ :: gs,
      flatten_append flatten_field hfs, rfl, .cons ⟨rfl, rfl, rfl, hS⟩ hrel⟩
  | @spread name fragment sub ss out hname hsub h ihS ih =>
    have hmem : name ∈ spreadsAll (.spread name :: ss) := List.mem_cons_self
    have hnamed := hinfo.named name fragment hname
    have hnew := hinside.notMem hinfo hmem
    have hle := room_cons_le (w := fun _ => 1) hname hnew
    obtain ⟨depth, rfl⟩ : ∃ d, depth = d + 1 := Nat.exists_eq_succ_of_ne_zero (by omega)
    have hsub : info.room (fun _ => 1) (name :: visiting) ≤ depth := by omega
    obtain ⟨fs, gs, hfs, rfl, hrel⟩ := ihS (hinside.enter hmem hname) hsub
    obtain ⟨fs', gs', hfs', rfl, hrel'⟩ := ih (hinside.mono (by simp [spreadsAll])) hroom
    have hhere : info.flatten (depth + 1) visiting [.spread name] = .ok fs := by
      rw [flatten_spread hname (hnamed ▸ hnew), hnamed, hfs]
    exact ⟨fs ++ fs', gs ++ gs', flatten_append hhere hfs', List.map_append.symm,
      List.rel_append hrel hrel'⟩
  | inline hS h ihS ih =>
    obtain ⟨fs, gs, hfs, rfl, hrel⟩ := ihS (hinside.mono (by simp [spreadsAll, spreads])) hroom
    obtain ⟨fs', gs', hfs', rfl, hrel'⟩ := ih (hinside.mono (by simp [spreadsAll])) hroom
    exact ⟨fs ++ fs', gs ++ gs', flatten_append (flatten_inline.trans hfs) hfs',
      List.map_append.symm, List.rel_append hrel hrel'⟩

omit hinfo in
theorem depthBound_eq : info.depthBound ss =
    sizeAll ss + 1 + info.room (fun f => sizeAll f.selections) [] := by
  rw [room_nil, depthBound]
  generalize sizeAll ss + 1 = n
  induction info.fragments generalizing n with
  | nil => rfl
  | cons f fs ih => rw [List.foldl_cons, ih, List.map_cons, List.sum_cons, Nat.add_assoc]

/-- The planner has depth for all fields. -/
theorem heightAll_lt_depthBound (h : info.Inlines ss out) :
    heightAll out < info.depthBound ss := by
  have hle := heightAll_le hinfo h inside_nil
  rw [depthBound_eq]
  omega

omit hinfo in
theorem heightAll_lt_depthBound_self : heightAll ss < info.depthBound ss := by
  have hle : heightAll ss ≤ sizeAll ss := heightAll_le_sizeAll
  rw [depthBound_eq]
  omega

/-- Related selection sets expand to fields that agree but for their selections, and these are
related again; on the left they are less high. -/
def Simulates (info info' : ExecutionInfo) (R : List Selection → List Selection → Prop) : Prop :=
  ∀ ⦃ss ss'⦄, R ss ss' → ∃ fs fs', info.expand ss = .ok fs ∧ info'.expand ss' = .ok fs' ∧
    List.Forall₂ (Field.Matches fun S S' => R S S' ∧ heightAll S < heightAll ss) fs fs'

/-- The selection set with fragments in place simulates the one with fragments. -/
theorem simulates_inlines : info.Simulates info fun out ss => info.Inlines ss out := by
  intro out ss h
  have hroom : info.room (fun _ => 1) [] ≤ info.fragments.length := by simp
  obtain ⟨fs, gs, hfs, rfl, hrel⟩ := flatten_of_inlines hinfo h inside_nil hroom
  have hheight : ∀ g ∈ gs, heightAll g.selections < heightAll (gs.map Field.toSelection) :=
    fun g hg => heightAll_lt_of_mem hg
  have hlower : List.Forall₂ (Field.Matches fun S' S => info.Inlines S S' ∧
      heightAll S' < heightAll (gs.map Field.toSelection)) gs fs :=
    ((List.forall₂_and_left _ _).mpr ⟨hheight, hrel⟩).imp fun _ _ hgf =>
      hgf.2.imp fun hsub => ⟨hsub, hgf.1⟩
  refine ⟨_, _, expand_map_toSelection, expand_of_flatten hfs, ?_⟩
  refine Field.forall₂_collected (fun h h' => ⟨h.1.append h'.1, ?_⟩) hlower
  rw [heightAll_append]
  exact max_lt h.2 h'.2

end

end ExecutionInfo

end RelQuery

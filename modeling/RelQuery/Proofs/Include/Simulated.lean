import RelQuery.Query
import RelQuery.Proofs.Selection.Inlined

/-!
# Plans of selection sets that simulate each other

The planner reads names, response keys and arguments of the fields that a selection set expands to,
and plans their selections in turn. So selection sets whose fields agree at every depth have one
plan, whatever fragments they were written with.
-/

namespace RelQuery

variable {s : Schema} {info info' : ExecutionInfo} {m target : Model} {f f' : Field}
  {fs fs' : List Field} {R : List Selection → List Selection → Prop} {ss ss' : List Selection}

/-- Alike fields of two executions with the same variables have the same arguments. -/
theorem argument?_of_matches (hf : f.Matches R f') (hbind : info.bindings = info'.bindings)
    (name : String) : f.argument? name info.bindings = f'.argument? name info'.bindings := by
  rw [Field.argument?, Field.argument?, hf.arguments, hbind]

theorem argumentsOfField_of_matches (hf : f.Matches R f')
    (hbind : info.bindings = info'.bindings) :
    Arguments.ofField f info = Arguments.ofField f' info' := by
  rw [Arguments.ofField, Arguments.ofField, argument?_of_matches hf hbind]

namespace Include

variable {level : Level} {planTarget planTarget' : Model → List Field → Except PlanError Level}
  {assoc : Association} {depth depth' : Nat}

theorem ofField_congr (hf : f.Matches R f') (hbind : info.bindings = info'.bindings)
    (h : ∀ target, (info.expand f.selections >>= planTarget target) =
      (info'.expand f'.selections >>= planTarget' target)) :
    ofField s info planTarget assoc f = ofField s info' planTarget' assoc f' := by
  unfold ofField
  simp only [← bind_assoc, h, argumentsOfField_of_matches hf hbind]

theorem addField_congr (hf : f.Matches R f') (hbind : info.bindings = info'.bindings)
    (h : ∀ target, (info.expand f.selections >>= planTarget target) =
      (info'.expand f'.selections >>= planTarget' target)) :
    level.addField s info planTarget m f = level.addField s info' planTarget' m f' := by
  have hopt : f.isOptimized info = f'.isOptimized info' := by
    rw [Field.isOptimized, Field.isOptimized, argument?_of_matches hf hbind]
  unfold Level.addField Level.addAssociation
  simp only [hf.name, hopt, ofField_congr hf hbind h]

/-- Simulating selection sets are planned alike, if there is depth for all their fields. -/
theorem planLevel_eq (hR : info.Simulates info' R) (hbind : info.bindings = info'.bindings)
    (h : R ss ss') (hdepth : Selection.heightAll ss < depth)
    (hdepth' : Selection.heightAll ss < depth') :
    (info.expand ss >>= planLevel s info depth m) =
      (info'.expand ss' >>= planLevel s info' depth' m) := by
  induction depth generalizing depth' m ss ss' with
  | zero => exact absurd hdepth (Nat.not_lt_zero _)
  | succ depth ih =>
    obtain ⟨depth', rfl⟩ := Nat.exists_eq_succ_of_ne_zero (Nat.ne_zero_of_lt hdepth')
    obtain ⟨fs, fs', hfs, hfs', hfields⟩ := hR h
    rw [hfs, hfs', ok_bind, ok_bind, planLevel, planLevel]
    refine foldlM_congr₂ hfields fun level f f' hf => addField_congr hf hbind fun target => ?_
    obtain ⟨hsub, hlt⟩ := hf.selections
    exact ih hsub (by omega) (by omega)

/-- Simulating selection sets have one plan. -/
theorem plan_eq {model : String} {filter : Option Filter} {orders : List (List String)}
    (hR : info.Simulates info' R) (hbind : info.bindings = info'.bindings) (h : R ss ss')
    (hdepth : Selection.heightAll ss < info.depthBound ss)
    (hdepth' : Selection.heightAll ss < info'.depthBound ss') :
    Include.plan s info model ss filter orders = Include.plan s info' model ss' filter orders := by
  unfold Include.plan
  simp only [← bind_assoc, planLevel_eq hR hbind h hdepth hdepth']

end Include

/-- A list whose selections simulate those of another one has the same plan. -/
theorem Query.rootList_eq {model : String} {field : Field} (hR : info.Simulates info' R)
    (hbind : info.bindings = info'.bindings) (h : R field.selections ss')
    (hdepth : Selection.heightAll field.selections < info.depthBound field.selections)
    (hdepth' : Selection.heightAll field.selections < info'.depthBound ss') :
    rootList s model field info = rootList s model { field with selections := ss' } info' := by
  have hfield : field.Matches R { field with selections := ss' } := ⟨rfl, rfl, rfl, h⟩
  rw [rootList, rootList, argumentsOf, argumentsOf, argumentsOfField_of_matches hfield hbind,
    Include.plan_eq hR hbind h hdepth hdepth']

end RelQuery

import RelQuery.Proofs.Filter.Compared
import RelQuery.Proofs.Filter.Literals

/-!
# Elements of lists

A list is read element by element, each as the operand of a comparison with it alone. One kind of
scalar is not: a text that alone would be cast to a timestamp is carried in a list as it stands.
-/

namespace RelQuery

namespace Operand

/-- A text that the database casts where it is the operand itself. -/
def IsCast (type : ScalarType) (dialect : Dialect) (value : Document) : Prop :=
  type = .dateTimeOffset ∧ dialect = .mssql ∧ ∃ text, value = .str text

variable {type : ScalarType} {dialect : Dialect} {value d : Document} {attr : String}
  {items : List Document} {op : Operator} {u : Unit}

theorem ofValue_arr : ofValue type dialect (.arr items) attr =
    (fun ds => .plain (.arr ds)) <$> items.mapM (scalar type · attr) := by
  rw [ofValue]
  exact (bind_pure_comp _ _)

theorem ne_arr_of_isBracket (hv : Filter.isBracket value = false) :
    ∀ items, value ≠ .arr items := by
  rintro items rfl
  cases hv

/-- What is no list and not cast is read by its type alone. -/
theorem ofValue_of_not_isCast (hv : ∀ items, value ≠ .arr items)
    (hcast : ¬IsCast type dialect value) :
    ofValue type dialect value attr = .plain <$> scalar type value attr := by
  cases value with
  | arr items => exact (hv items rfl).elim
  | str text =>
    rw [ofValue, if_neg fun h => hcast ⟨h.1, h.2, text, rfl⟩]
    exact (bind_pure_comp _ _)
  | _ => exact (bind_pure_comp _ _)

theorem ofValue_of_isCast (hcast : IsCast type dialect value) :
    ofValue type dialect value attr =
      (.cast · ScalarType.dateTimeOffset.sqlName) <$> timestamp value attr := by
  obtain ⟨rfl, rfl, text, rfl⟩ := hcast
  rw [ofValue, if_pos ⟨rfl, rfl⟩]
  exact (bind_pure_comp _ _)

/-- In a list the text stays as it is. -/
theorem scalar_of_isCast (hcast : IsCast type dialect value) :
    scalar type value attr = .ok value := by
  obtain ⟨rfl, -, text, rfl⟩ := hcast
  rfl

theorem checkShape_arr (hop : op.takesList = true) :
    checkShape op (.arr items) attr = .ok u ↔ (op.isRange = true → items.length = 2) := by
  simp only [checkShape, hop, if_true]
  split <;> simp_all [malformed]

theorem checkShape_gt (hv : Filter.isBracket value = false) :
    checkShape .gt value attr = .ok () := by
  cases value <;> first | rfl | cases hv

end Operand

namespace Filter

open Operand

/-- What a list carries for one of its elements: what the element is compared with alone, or a text
that alone would be cast, as it stands. -/
inductive CarriesElement (s : Schema) (model : String) (keys : List String) (scope : Scope)
    (a : Attribute) : Document → Document → Prop
  | alone {value d : Document} :
      compile s model (comparing keys .gt value) = .ok (stored scope a .gt (.plain d)) →
      CarriesElement s model keys scope a value d
  | uncast {value : Document} : IsCast a.type s.options.dialect value →
      CarriesElement s model keys scope a value value

variable {s : Schema} {model : String} {keys : List String} {scope : Scope} {a : Attribute}
  {op : Operator} {value d : Document} {items ds : List Document} {f : Filter}

section
variable (h : Addresses s model keys scope a) (hstored : a.computed = none)
  (hdoc : scope.documentPath = [])
include h hstored hdoc

theorem compile_gt (hv : isBracket value = false) :
    compile s model (comparing keys .gt value) =
      stored scope a .gt <$> ofValue a.type s.options.dialect value a.name := by
  have hfilters : holdsFilters scope value = false :=
    h.holdsFilters_eq_false fun fields hfields => by
      subst hfields
      cases hv
  have hnull : testForNull .gt value = .gt := by
    unfold testForNull
    split <;> rfl
  rw [h.compile_comparing hfilters, leaf_stored h.attr hstored hdoc rfl, hnull,
    checkShape_gt hv, ok_bind]
  exact bind_pure_comp _ _

theorem compile_arr (hop : op.takesList = true) :
    compile s model (comparing keys op (.arr items)) = .ok f ↔
      (op.isRange = true → items.length = 2) ∧
        ∃ ds, items.mapM (scalar a.type · a.name) = .ok ds ∧
          f = stored scope a op (.plain (.arr ds)) := by
  have hpattern : op.isPattern = false := by cases op <;> first | rfl | cases hop
  have hfilters : holdsFilters scope (.arr items) = false := h.holdsFilters_eq_false nofun
  rw [h.compile_comparing hfilters, leaf_stored h.attr hstored hdoc hpattern]
  simp only [testForNull, Document.isNull, Bool.false_eq_true, if_false, ofValue_arr, bind_eq_ok,
    map_eq_ok, pure_eq_ok, checkShape_arr hop]
  constructor
  · rintro ⟨-, hlength, -, ⟨ds, hds, rfl⟩, rfl⟩
    exact ⟨hlength, ds, hds, rfl⟩
  · rintro ⟨hlength, ds, hds, rfl⟩
    exact ⟨(), hlength, _, ⟨ds, hds, rfl⟩, rfl⟩

/-- One element is read as the comparison with it alone reads it. -/
theorem scalar_iff (hv : isBracket value = false) :
    scalar a.type value a.name = .ok d ↔
      CarriesElement s model keys scope a value d := by
  by_cases hcast : IsCast a.type s.options.dialect value
  · rw [scalar_of_isCast hcast]
    constructor
    · rintro ⟨⟩
      exact .uncast hcast
    · rintro (hgt | _)
      · rw [compile_gt h hstored hdoc hv, ofValue_of_isCast hcast] at hgt
        obtain ⟨_, hoperand, heq⟩ := map_eq_ok.mp hgt
        obtain ⟨t, -, rfl⟩ := map_eq_ok.mp hoperand
        cases heq
      · rfl
  · have hgt : compile s model (comparing keys .gt value) =
        stored scope a .gt <$> (.plain <$> scalar a.type value a.name) := by
      rw [compile_gt h hstored hdoc hv, ofValue_of_not_isCast (ne_arr_of_isBracket hv) hcast]
    constructor
    · intro hd
      exact .alone (by rw [hgt, hd]; rfl)
    · rintro (halone | hcast')
      · rw [hgt] at halone
        obtain ⟨_, hoperand, heq⟩ := map_eq_ok.mp halone
        obtain ⟨d', hd', rfl⟩ := map_eq_ok.mp hoperand
        cases heq
        exact hd'
      · exact (hcast hcast').elim

/-- An element is carried if it is accepted alone, is null, or is a text that is cast alone. -/
theorem exists_scalar_iff (hv : isBracket value = false) :
    (∃ d, scalar a.type value a.name = .ok d) ↔ value = .null ∨
      IsCast a.type s.options.dialect value ∨
        ∃ f, compile s model (comparing keys .gt value) = .ok f := by
  constructor
  · rintro ⟨d, hd⟩
    cases (scalar_iff h hstored hdoc hv).mp hd with
    | alone hgt => exact .inr (.inr ⟨_, hgt⟩)
    | uncast hcast => exact .inr (.inl hcast)
  · rintro (rfl | hcast | ⟨f, hf⟩)
    · exact ⟨.null, rfl⟩
    · exact ⟨value, scalar_of_isCast hcast⟩
    · by_cases hcast : IsCast a.type s.options.dialect value
      · exact ⟨value, scalar_of_isCast hcast⟩
      · have harr := ne_arr_of_isBracket hv
        rw [compile_gt h hstored hdoc hv, ofValue_of_not_isCast harr hcast] at hf
        obtain ⟨_, hoperand, -⟩ := map_eq_ok.mp hf
        obtain ⟨d, hd, -⟩ := map_eq_ok.mp hoperand
        exact ⟨d, hd⟩

/-- A text that is cast is accepted alone if it is a timestamp, which is what it is compared
with. -/
theorem compile_gt_of_isCast (hcast : IsCast a.type s.options.dialect value) :
    compile s model (comparing keys .gt value) = .ok f ↔ ∃ text t, value = .str text ∧
      Calendar.normalize? text = some t ∧
      f = stored scope a .gt (.cast t ScalarType.dateTimeOffset.sqlName) := by
  have hv : isBracket value = false := by
    obtain ⟨-, -, text, rfl⟩ := hcast
    rfl
  rw [compile_gt h hstored hdoc hv, ofValue_of_isCast hcast]
  constructor
  · intro hf
    obtain ⟨_, hoperand, rfl⟩ := map_eq_ok.mp hf
    obtain ⟨t, ht, rfl⟩ := map_eq_ok.mp hoperand
    obtain ⟨text, rfl, htext⟩ := timestamp_eq_ok ht
    exact ⟨text, t, rfl, htext, rfl⟩
  · rintro ⟨text, t, rfl, htext, rfl⟩
    rw [timestamp]
    simp [htext]

/-- A list of scalars is accepted exactly if it has the length that the operator asks for and each
element but null is accepted alone, and it carries what each element is compared with alone. Where
timestamps are cast, a text in a list is the exception: alone it is refused or cast, in a list it is
accepted and carried as it stands. -/
theorem compile_list (hop : op.takesList = true) (hitems : ∀ v ∈ items, isBracket v = false) :
    ((∃ f, compile s model (comparing keys op (.arr items)) = .ok f) ↔
      (op.isRange = true → items.length = 2) ∧
        ∀ v ∈ items, v ≠ .null → IsCast a.type s.options.dialect v ∨
          ∃ f, compile s model (comparing keys .gt v) = .ok f) ∧
    (∀ f, compile s model (comparing keys op (.arr items)) = .ok f →
      ∃ ds, f = stored scope a op (.plain (.arr ds)) ∧
        List.Forall₂ (CarriesElement s model keys scope a) items ds) ∧
    ∀ v, IsCast a.type s.options.dialect v → ∀ f,
      compile s model (comparing keys .gt v) = .ok f ↔ ∃ text t, v = .str text ∧
        Calendar.normalize? text = some t ∧ f = stored scope a .gt (.cast t "DATETIMEOFFSET") := by
  refine ⟨⟨?_, ?_⟩, ?_, fun v hcast f => compile_gt_of_isCast h hstored hdoc hcast⟩
  · rintro ⟨f, hf⟩
    obtain ⟨hlength, ds, hds, -⟩ := (compile_arr h hstored hdoc hop).mp hf
    refine ⟨hlength, fun v hv hnull => ?_⟩
    obtain ⟨d, -, hd⟩ := of_mem_mapM hds hv
    exact ((exists_scalar_iff h hstored hdoc (hitems v hv)).mp ⟨d, hd⟩).resolve_left hnull
  · rintro ⟨hlength, helements⟩
    have hscalars : ∀ v ∈ items, ∃ d, scalar a.type v a.name = .ok d := by
      intro v hv
      by_cases hnull : v = .null
      · exact ⟨.null, by rw [hnull]; rfl⟩
      · exact (exists_scalar_iff h hstored hdoc (hitems v hv)).mpr (.inr (helements v hv hnull))
    obtain ⟨ds, hds⟩ := exists_mapM hscalars
    exact ⟨_, (compile_arr h hstored hdoc hop).mpr ⟨hlength, ds, hds, rfl⟩⟩
  · intro f hf
    obtain ⟨-, ds, hds, rfl⟩ := (compile_arr h hstored hdoc hop).mp hf
    refine ⟨ds, rfl, ?_⟩
    have hcarried := forall₂_of_mapM hds
    rw [List.forall₂_iff_get] at hcarried ⊢
    refine ⟨hcarried.1, fun i hi hi' => ?_⟩
    exact (scalar_iff h hstored hdoc (hitems _ (List.get_mem items ⟨i, hi⟩))).mp
      (hcarried.2 i hi hi')

end

/-! ### Deliveries, on a database that casts timestamps -/

def deliveries : Schema where
  models := [⟨"Delivery", "deliveries", [⟨"id", "id", .integer, false, true, none⟩,
    ⟨"sentAt", "sent_at", .dateTimeOffset, true, false, none⟩], []⟩]
  options := { dialect := .mssql }

theorem addresses_sentAt : ∃ m a, deliveries.model "Delivery" = .ok m ∧
    m.attribute? "sentAt" = some a ∧ a.computed = none ∧ IsCast a.type deliveries.options.dialect
      (.str "noon") ∧
    Addresses deliveries "Delivery" ["sentAt"] ((Scope.root m).atAttribute a) a :=
  ⟨_, _, rfl, rfl, rfl, ⟨rfl, rfl, _, rfl⟩,
    addresses_attribute rfl rfl (by unfold IsField; decide)⟩

/-- A text that is no timestamp is refused alone, and accepted in a list. -/
theorem noon_in_list : ∃ m a, deliveries.model "Delivery" = .ok m ∧
    m.attribute? "sentAt" = some a ∧
    (∀ f, compile deliveries "Delivery" (comparing ["sentAt"] .gt (.str "noon")) ≠ .ok f) ∧
    ∃ ds, compile deliveries "Delivery" (comparing ["sentAt"] .isIn (.arr [.str "noon"])) =
        .ok (stored ((Scope.root m).atAttribute a) a .isIn (.plain (.arr ds))) ∧
      List.Forall₂ (CarriesElement deliveries "Delivery" ["sentAt"]
        ((Scope.root m).atAttribute a) a) [.str "noon"] ds := by
  obtain ⟨m, a, hm, ha, hstored, hcast, h⟩ := addresses_sentAt
  have hop : Operator.takesList .isIn = true := rfl
  have hitems : ∀ v ∈ [Document.str "noon"], isBracket v = false := by decide
  obtain ⟨haccepted, hcarried, halone⟩ := compile_list h hstored rfl hop hitems
  refine ⟨m, a, hm, ha, fun f hf => ?_, ?_⟩
  · obtain ⟨_, t, ⟨⟩, ht, -⟩ := (halone _ hcast f).mp hf
    have hnone : Calendar.normalize? "noon" = none := by decide
    rw [hnone] at ht
    cases ht
  · obtain ⟨f, hf⟩ := haccepted.mpr ⟨nofun, fun v hv _ => .inl (List.mem_singleton.mp hv ▸ hcast)⟩
    obtain ⟨ds, rfl, hds⟩ := hcarried f hf
    exact ⟨ds, hf, hds⟩

/-- Alone a day is compared as a timestamp, with a cast, and what is no timestamp is refused. A list
accepts both and carries them as they stand. -/
theorem sentAt_list_uncast :
    compile deliveries "Delivery" (.obj [("sentAt", .obj [("_gtOp", .str "2024-01-02")])]) =
      .ok (.comparison ⟨⟨[], "sentAt", []⟩, .gt,
        .cast "2024-01-02T00:00:00+00:00" "DATETIMEOFFSET", some .dateTimeOffset, false⟩) ∧
    compile deliveries "Delivery" (.obj [("sentAt", .obj [("_gtOp", .str "noon")])]) =
      malformed (.kindExpected "sentAt" .date (.str "noon")) ∧
    compile deliveries "Delivery"
        (.obj [("sentAt", .obj [("_inOp", .arr [.str "2024-01-02", .str "noon"])])]) =
      .ok (.comparison ⟨⟨[], "sentAt", []⟩, .isIn,
        .plain (.arr [.str "2024-01-02", .str "noon"]), some .dateTimeOffset, false⟩) := by
  refine ⟨?_, ?_, ?_⟩
  · simp only [compile, compileValue, compileFields]
    rfl
  · simp only [compile, compileValue, compileFields]
    rfl
  · simp only [compile, compileValue, compileFields]
    rfl

end Filter

end RelQuery
